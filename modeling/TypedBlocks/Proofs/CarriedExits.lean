import TypedBlocks.Inference.Pass
import TypedBlocks.Proofs.Completions
import TypedBlocks.Proofs.KnownTypes

/-!
# Exits that completions carry

Completions carry an exit if they hold a type for its target that covers the type of its value. What
a part of an expression carries the whole carries as well, unless the exit lands in between.
-/
namespace TypedBlocks

namespace Inference

section Updates

variable {α β : Type} [BEq α] [LawfulBEq α] {key k : α} {new : β} {change : β → β}
  {es : List (α × β)}

/-- An update at one key leaves the others alone. -/
theorem lookup_updateAt_ne (other : k ≠ key) :
    (updateAt key new change es).lookup k = es.lookup k := by
  induction es with
  | nil => rw [updateAt, List.lookup_cons, beq_false_of_ne other]
  | cons e es ih =>
    rw [updateAt]
    split
    · rename_i here
      rw [beq_iff_eq] at here
      rw [List.lookup_cons, List.lookup_cons, beq_false_of_ne (here ▸ other)]
    · rw [List.lookup_cons, List.lookup_cons, ih]

theorem lookup_updateAt_self : (updateAt key new change es).lookup key =
    some (match es.lookup key with
      | some b => change b
      | none => new) := by
  induction es with
  | nil => simp [updateAt]
  | cons e es ih =>
    rw [updateAt]
    split
    · rename_i here
      rw [beq_iff_eq] at here
      rw [← here, List.lookup_cons_self, List.lookup_cons_self]
    · rename_i other
      have apart : (key == e.1) = false := beq_false_of_ne fun same => other (beq_iff_eq.2 same.symm)
      rw [List.lookup_cons, List.lookup_cons, apart, ih]

theorem lookup_removeAt_ne {entries : List (α × Ty)} (other : k ≠ key) :
    (removeAt key entries).lookup k = entries.lookup k := by
  induction entries with
  | nil => rfl
  | cons e entries ih =>
    rw [removeAt]
    split
    · rename_i here
      rw [beq_iff_eq] at here
      rw [List.lookup_cons, beq_false_of_ne (here ▸ other)]
    · rw [List.lookup_cons, List.lookup_cons, ih]

end Updates

end Inference

open Inference (RunTarget)

/-- The target of an exit and the type of the value that goes there. -/
def Completion.exit? : Completion → Option (RunTarget × Ty)
  | .normal _ => none
  | .return id u => some (.frame id, u)
  | .break b u => some (.break b, u)

namespace Completions

/-- The type of the values that go to the target. -/
def exitTy? (c : Completions) : RunTarget → Option Ty
  | .frame id => c.returnTy? id
  | .break target => c.breakTy? target

/-- A value of the type can go to the target. -/
def Carries (c : Completions) (target : RunTarget) (t : Ty) : Prop :=
  t.Proper ∧ ∃ u, c.exitTy? target = some u ∧ t ≤ u

/-- Whatever the other one carries is carried. -/
def Covers (d c : Completions) : Prop := ∀ target t, c.Carries target t → d.Carries target t

variable {V : Vocabulary} {c d : Completions} {target : RunTarget} {t u : Ty}

theorem exitTy?_known (known : c.All (Ty.Known V)) (found : c.exitTy? target = some u) :
    u.Known V := by
  cases target with
  | frame id => exact known.returnTy? id u found
  | «break» b => exact known.breakTy? b u found

@[simp] theorem exitTy?_never : never.exitTy? target = none := by cases target <;> rfl

@[simp] theorem exitTy?_ofNormal : (ofNormal u).exitTy? target = none := by cases target <;> rfl

@[simp] theorem exitTy?_dropNormal : c.dropNormal.exitTy? target = c.exitTy? target := by
  cases target <;> rfl

@[simp] theorem exitTy?_joinNormal (a : Option Ty) :
    (c.joinNormal a).exitTy? target = c.exitTy? target := by
  cases target <;> rfl

/-- Values pass an expanded call but for those that end it. -/
theorem exitTy?_throughCall {site : SiteId} {frame : FrameId}
    (passes : target ∉ [RunTarget.frame frame, .break (.call site)]) :
    (c.throughCall site frame).exitTy? target = c.exitTy? target := by
  simp only [List.mem_cons, List.not_mem_nil, or_false, not_or] at passes
  rw [throughCall_eq, dropReturn_eq, dropBreak_eq]
  cases target with
  | frame id => exact Inference.lookup_removeAt_ne fun same => passes.1 (same ▸ rfl)
  | «break» b => exact Inference.lookup_removeAt_ne fun same => passes.2 (same ▸ rfl)

/-- Values pass a loop but for those that end it. -/
theorem exitTy?_throughLoop {id : LoopId} {terminates : Bool}
    (passes : target ∉ [RunTarget.break (.loop id)]) :
    (c.throughLoop id terminates).exitTy? target = c.exitTy? target := by
  have lifted : (c.dropNormal.dropBreak (.loop id)).exitTy? target = c.exitTy? target := by
    rw [dropBreak_eq]
    cases target with
    | frame id => rfl
    | «break» b => exact Inference.lookup_removeAt_ne fun same => passes (by simp [same])
  rw [throughLoop_eq]
  split <;> simp only [exitTy?_joinNormal, lifted]

theorem not_carries_never : ¬ never.Carries target t := by simp [Carries]

theorem Carries.of_same (same : d.exitTy? target = c.exitTy? target)
    (carries : c.Carries target t) : d.Carries target t := by
  rwa [Carries, same]

theorem Carries.dropNormal (carries : c.Carries target t) : c.dropNormal.Carries target t :=
  .of_same exitTy?_dropNormal carries

theorem Carries.joinNormal (carries : c.Carries target t) (a : Option Ty) :
    (c.joinNormal a).Carries target t :=
  .of_same (exitTy?_joinNormal a) carries

/-- An extension of the entries covers what they covered and what they are extended by. -/
theorem lookup_extendAt {α : Type} [BEq α] [LawfulBEq α] (key : α) {k : α} {entries : List (α × Ty)}
    (types : ∀ e ∈ entries, e.2.Known V) (new : u.Known V) :
    (∀ w, entries.lookup k = some w → ∃ w', (extendAt key u entries).lookup k = some w' ∧ w ≤ w') ∧
      ∃ w', (extendAt key u entries).lookup key = some w' ∧ u ≤ w' := by
  rw [Inference.extendAt_eq, Inference.lookup_updateAt_self]
  constructor
  · intro w found
    have proper := (Inference.lookup_forall types found).proper
    by_cases same : k = key
    · subst same
      rw [Inference.lookup_updateAt_self, found]
      exact ⟨_, rfl, Ty.le_join_left proper new.proper⟩
    · rw [Inference.lookup_updateAt_ne same, found]
      exact ⟨w, rfl, proper.le_refl⟩
  · refine ⟨_, rfl, ?_⟩
    cases found : entries.lookup key with
    | none => exact new.proper.le_refl
    | some w =>
      exact Ty.le_join_right (Inference.lookup_forall types found).proper new.proper

theorem Carries.trans {w : Ty} (known : w.Known V) (proper : t.Proper) (below : t ≤ w)
    (carries : d.Carries target w) (types : d.All (Ty.Known V)) : d.Carries target t := by
  obtain ⟨-, w', found, above⟩ := carries
  exact ⟨proper, w', found, proper.le_trans known.proper (exitTy?_known types found).proper below
    above⟩

/-- One more way to end takes none away. -/
theorem Carries.add (known : c.All (Ty.Known V)) (carries : c.Carries target t) (x : Completion)
    (new : (never.add x).All (Ty.Known V)) : (c.add x).Carries target t := by
  obtain ⟨proper, w, found, below⟩ := carries
  have covered (w') (longer : (c.add x).exitTy? target = some w') (above : w ≤ w')
      (known' : w'.Known V) : (c.add x).Carries target t :=
    ⟨proper, w', longer, proper.le_trans (exitTy?_known known found).proper known'.proper below above⟩
  cases x with
  | normal u => exact ⟨proper, w, by cases target <;> exact found, below⟩
  | «return» id u =>
    have type := new.returns (id, u) List.mem_cons_self
    cases target with
    | frame id' =>
      obtain ⟨w', longer, above⟩ := (lookup_extendAt id known.returns type).1 w found
      exact covered w' longer above ((known.addReturn (fun _ _ => Ty.Known.join) id
        type).returnTy? id' w' longer)
    | «break» b => exact ⟨proper, w, found, below⟩
  | «break» b u =>
    have type := new.breaks (b, u) List.mem_cons_self
    cases target with
    | frame id => exact ⟨proper, w, found, below⟩
    | «break» b' =>
      obtain ⟨w', longer, above⟩ := (lookup_extendAt b known.breaks type).1 w found
      exact covered w' longer above ((known.addBreak (fun _ _ => Ty.Known.join) b
        type).breakTy? b' w' longer)

theorem add_known {x : Completion} (known : c.All (Ty.Known V))
    (new : (never.add x).All (Ty.Known V)) : (c.add x).All (Ty.Known V) := by
  cases x with
  | normal u => exact known.addNormal (fun _ _ => Ty.Known.join) (new.normal u rfl)
  | «return» id u =>
    exact known.addReturn (fun _ _ => Ty.Known.join) id (new.returns (id, u) List.mem_cons_self)
  | «break» b u =>
    exact known.addBreak (fun _ _ => Ty.Known.join) b (new.breaks (b, u) List.mem_cons_self)

/-- A way to end that is added is there. -/
theorem add_carries {x : Completion} (known : c.All (Ty.Known V))
    (new : (never.add x).All (Ty.Known V)) (exit : x.exit? = some (target, u)) :
    (c.add x).Carries target u := by
  cases x with
  | normal u => cases exit
  | «return» id u' =>
    cases exit
    have type : u.Known V := new.returns (id, u) List.mem_cons_self
    exact ⟨type.proper, (lookup_extendAt (k := id) id known.returns type).2⟩
  | «break» b u' =>
    cases exit
    have type : u.Known V := new.breaks (b, u) List.mem_cons_self
    exact ⟨type.proper, (lookup_extendAt (k := b) b known.breaks type).2⟩

/-- Further ways to end take none away, and are there afterwards. -/
theorem foldl_add_carries {xs : List Completion} (known : c.All (Ty.Known V))
    (types : ∀ x ∈ xs, (never.add x).All (Ty.Known V)) :
    (xs.foldl add c).All (Ty.Known V) ∧
      (c.Carries target t → (xs.foldl add c).Carries target t) ∧
        ∀ x ∈ xs, x.exit? = some (target, t) → (xs.foldl add c).Carries target t := by
  induction xs generalizing c with
  | nil => exact ⟨known, id, nofun⟩
  | cons x xs ih =>
    rw [List.forall_mem_cons] at types
    obtain ⟨all, old, new⟩ := ih (add_known known types.1) types.2
    refine ⟨all, fun carries => old (carries.add known x types.1), ?_⟩
    exact List.forall_mem_cons.2 ⟨fun exit => old (add_carries known types.1 exit), new⟩

theorem toList_known (known : d.All (Ty.Known V)) :
    ∀ x ∈ d.toList, (never.add x).All (Ty.Known V) := by
  intro x member
  simp only [toList, List.mem_append, List.mem_map, Option.mem_toList] at member
  rcases member with (⟨u, inside, rfl⟩ | ⟨r, inside, rfl⟩) | ⟨b, inside, rfl⟩
  · exact ⟨fun w same => Option.some.inj same ▸ known.normal u inside, nofun, nofun⟩
  · refine ⟨nofun, fun e only => ?_, nofun⟩
    exact List.mem_singleton.1 only ▸ known.returns r inside
  · refine ⟨nofun, nofun, fun e only => ?_⟩
    exact List.mem_singleton.1 only ▸ known.breaks b inside

/-- Every exit is listed. -/
theorem exit_mem_toList (found : d.exitTy? target = some u) :
    ∃ x ∈ d.toList, x.exit? = some (target, u) := by
  cases target with
  | frame id =>
    obtain ⟨k, member, same⟩ := Inference.lookup_mem found
    cases beq_iff_eq.1 same
    exact ⟨.return id u, by simp [toList, member], rfl⟩
  | «break» b =>
    obtain ⟨k, member, same⟩ := Inference.lookup_mem found
    cases beq_iff_eq.1 same
    exact ⟨.break b u, by simp [toList, member], rfl⟩

theorem Carries.join_left (carries : c.Carries target t) (left : c.All (Ty.Known V))
    (right : d.All (Ty.Known V)) : (c.join d).Carries target t :=
  (foldl_add_carries left (toList_known right)).2.1 carries

theorem Carries.join_right (carries : d.Carries target t) (left : c.All (Ty.Known V))
    (right : d.All (Ty.Known V)) : (c.join d).Carries target t := by
  obtain ⟨proper, u, found, below⟩ := carries
  obtain ⟨x, member, exit⟩ := exit_mem_toList found
  obtain ⟨all, -, brought⟩ := foldl_add_carries (t := u) left (toList_known right)
  exact (brought x member exit).trans (exitTy?_known right found) proper below all

/-- What runs first keeps its exits. -/
theorem Carries.andThen_left (carries : c.Carries target t) (left : c.All (Ty.Known V))
    (right : d.All (Ty.Known V)) : (c.andThen d).Carries target t := by
  rw [andThen]
  split
  · exact carries.dropNormal.join_left left.dropNormal right
  · exact carries

theorem Carries.andThen_right (carries : d.Carries target t) (falls : c.fallsThrough = true)
    (left : c.All (Ty.Known V)) (right : d.All (Ty.Known V)) : (c.andThen d).Carries target t := by
  rw [andThen, if_pos falls]
  exact carries.join_right left.dropNormal right

/-- Exits leave an expanded call but for those that end it. -/
theorem Carries.throughCall {site : SiteId} {frame : FrameId} (carries : c.Carries target t)
    (passes : target ∉ [RunTarget.frame frame, .break (.call site)]) :
    (c.throughCall site frame).Carries target t := carries.of_same (exitTy?_throughCall passes)

/-- What is carried is covered wherever the type for its target is. -/
theorem Carries.reaches {a : Option Ty} (carries : c.Carries target t)
    (known : c.All (Ty.Known V)) (types : ∀ u ∈ a, u.Known V)
    (below : Ty.OptionLe (c.exitTy? target) a) : ∃ u, a = some u ∧ t ≤ u := by
  obtain ⟨proper, w, found, under⟩ := carries
  rw [found] at below
  obtain ⟨u, same, above⟩ := below.some_left
  exact ⟨u, same, proper.le_trans (exitTy?_known known found).proper (types u same).proper under
    above⟩

/-- A loop ends with the values that break out of it, or with nil. -/
theorem throughLoop_normal (c : Completions) (id : LoopId) (terminates : Bool) :
    (c.throughLoop id terminates).normal = Ty.mergeOption (c.breakTy? (.loop id))
      (if terminates then some Ty.nil else none) := by
  rw [throughLoop_eq, dropBreak_eq]
  cases terminates <;> cases c.breakTy? (.loop id) <;>
    simp [Completions.joinNormal, Completions.dropNormal, Ty.mergeOption]

/-- The value of a loop covers what breaks out of it. -/
theorem Carries.throughLoop_normal {id : LoopId} {terminates : Bool} (known : c.All (Ty.Known V))
    (carries : c.Carries (.break (.loop id)) t) :
    ∃ u, (c.throughLoop id terminates).normal = some u ∧ t ≤ u := by
  have whole := known.throughLoop (fun _ _ => Ty.Known.join) id terminates .nil
  refine carries.reaches known whole.normal ?_
  rw [Completions.throughLoop_normal]
  refine Ty.le_mergeOption_left (fun u found => (known.breakTy? _ u found).proper) fun u found => ?_
  split at found
  · cases found
    exact Ty.Known.nil.proper (V := V)
  · cases found

/-- A loop that can stop by itself can end with nil. -/
theorem throughLoop_nil (known : c.All (Ty.Known V)) (id : LoopId) :
    ∃ u, (c.throughLoop id true).normal = some u ∧ Ty.nil ≤ u := by
  refine Ty.OptionLe.some_left ?_
  rw [throughLoop_normal, if_pos rfl]
  exact Ty.le_mergeOption_right (fun u found => (known.breakTy? _ u found).proper)
    fun u found => Option.some.inj found ▸ Ty.Known.nil.proper (V := V)

/-- Exits leave a loop but for those that end it. -/
theorem Carries.throughLoop {id : LoopId} {terminates : Bool} (carries : c.Carries target t)
    (passes : target ∉ [RunTarget.break (.loop id)]) :
    (c.throughLoop id terminates).Carries target t := carries.of_same (exitTy?_throughLoop passes)

end Completions

end TypedBlocks

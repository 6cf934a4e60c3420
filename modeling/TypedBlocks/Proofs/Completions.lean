import TypedBlocks.Ty.Completion

/-!
# Ends of combinations

The normal end of a combination of completions depends on the normal ends of its parts alone. What is
taken out of completions is the type that they hold, and its entry is gone afterwards.
-/
namespace TypedBlocks

/-- The list without the first entry of a key. -/
def removeAt {α : Type} [BEq α] (key : α) : List (α × Ty) → List (α × Ty)
  | [] => []
  | (k, u) :: entries => if k == key then entries else (k, u) :: removeAt key entries

theorem takeAt_eq {α : Type} [BEq α] [LawfulBEq α] {key : α} {entries : List (α × Ty)} :
    takeAt key entries = (entries.lookup key, removeAt key entries) := by
  induction entries with
  | nil => rfl
  | cons e entries ih =>
    rw [takeAt, List.findIdx?_cons, removeAt, List.lookup_cons]
    by_cases here : e.1 = key
    · subst here
      simp
    · rw [beq_false_of_ne here, beq_false_of_ne (Ne.symm here)]
      rw [takeAt] at ih
      cases found : entries.findIdx? fun f => f.1 == key with
      | none =>
        rw [found] at ih
        obtain ⟨absent, same⟩ := Prod.mk.inj ih
        rw [← absent, ← same]
        rfl
      | some i =>
        rw [found] at ih
        obtain ⟨taken, rest⟩ := Prod.mk.inj ih
        rw [← taken, ← rest]
        rfl

namespace Completions

theorem foldl_add_normal (l : List Completion) (c : Completions)
    (exits : ∀ x ∈ l, ∀ t, x ≠ .normal t) : (l.foldl add c).normal = c.normal := by
  induction l generalizing c with
  | nil => rfl
  | cons x l ih =>
    have rest := ih (c.add x) (fun y member => exits y (List.mem_cons_of_mem x member))
    rw [List.foldl_cons, rest]
    cases x with
    | normal t => exact absurd rfl (exits _ List.mem_cons_self t)
    | «return» f t => rfl
    | «break» b t => rfl

@[simp] theorem join_normal (c d : Completions) :
    (c.join d).normal = Ty.mergeOption c.normal d.normal := by
  rw [join, toList, List.append_assoc, List.foldl_append, foldl_add_normal]
  · cases d.normal with
    | none => cases reached : c.normal <;> simp [Ty.mergeOption, reached]
    | some t => rfl
  · intro x member t
    rcases List.mem_append.1 member with member | member
    all_goals
      obtain ⟨entry, -, rfl⟩ := List.mem_map.1 member
      simp

@[simp] theorem dropNormal_normal (c : Completions) : c.dropNormal.normal = none := rfl

@[simp] theorem mergeOption_none_left (t : Option Ty) : Ty.mergeOption none t = t := by
  cases t <;> rfl

/-- What follows decides, where it is reached. -/
theorem andThen_normal {c : Completions} (d : Completions) (falls : c.fallsThrough = true) :
    (c.andThen d).normal = d.normal := by
  simp [andThen, falls]

theorem andThen_stopped {c : Completions} (d : Completions) (stops : c.fallsThrough = false) :
    c.andThen d = c := by
  simp [andThen, stops]

section Taking

variable (c : Completions)

theorem dropReturn_eq (frame : FrameId) :
    c.dropReturn frame = { c with returns := removeAt frame c.returns } := by
  rw [dropReturn, takeReturn, takeAt_eq]

theorem dropBreak_eq (target : BreakTarget) :
    c.dropBreak target = { c with breaks := removeAt target c.breaks } := by
  rw [dropBreak, takeBreak, takeAt_eq]

theorem takeReturn_eq (frame : FrameId) :
    c.takeReturn frame = (c.returnTy? frame, c.dropReturn frame) := by
  rw [dropReturn_eq, takeReturn, takeAt_eq]
  rfl

theorem takeBreak_eq (target : BreakTarget) :
    c.takeBreak target = (c.breakTy? target, c.dropBreak target) := by
  rw [dropBreak_eq, takeBreak, takeAt_eq]
  rfl

theorem throughCall_eq (site : SiteId) (frame : FrameId) : c.throughCall site frame =
    ((c.dropReturn frame).dropBreak (.call site)).joinNormal
      (Ty.mergeOption (c.returnTy? frame) (c.breakTy? (.call site))) := by
  rw [throughCall, takeReturn_eq, takeBreak_eq, dropReturn_eq]
  rfl

theorem throughLoop_eq (id : LoopId) (terminates : Bool) : c.throughLoop id terminates =
    if terminates then ((c.dropNormal.dropBreak (.loop id)).joinNormal
      (c.breakTy? (.loop id))).joinNormal (some Ty.nil)
    else (c.dropNormal.dropBreak (.loop id)).joinNormal (c.breakTy? (.loop id)) := by
  rw [throughLoop, takeBreak_eq]
  rfl

theorem methodResult_eq (frame : FrameId) :
    c.methodResult frame = Ty.mergeOption c.normal (c.returnTy? frame) := by
  rw [methodResult, takeReturn_eq, dropReturn_eq]

end Taking

end Completions

end TypedBlocks

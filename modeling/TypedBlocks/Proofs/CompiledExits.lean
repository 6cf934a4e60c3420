import TypedBlocks.Proofs.CompilationSteps
import TypedBlocks.Proofs.ElaboratedScope

/-!
# Exits of compiled programs

In a compiled program all frames, calls and loops have numbers of their own, every exit leaves
something that stands around it, and every slot and every method that is named is there. So no run
of it ends in an exit without a target or in a method that is missing.
-/
namespace TypedBlocks.Inference

open Typed (InstanceId SlotId Slot Scope Point)
open Pass

/-- Without gaps, dropping them changes no place. -/
theorem filterMap_id_getElem? {l : List (Option Typed.Method)}
    (full : ∀ i < l.length, ∃ m, l[i]? = some (some m)) (i : Nat) :
    (l.filterMap id)[i]? = (l[i]?).join := by
  induction l generalizing i with
  | nil => rfl
  | cons o os ih =>
    obtain ⟨m, first⟩ := full 0 (by simp)
    cases Option.some.inj first
    have rest : ∀ i < os.length, ∃ m, os[i]? = some (some m) := fun i bound => by
      simpa using full (i + 1) (by simpa using bound)
    cases i with
    | zero => rfl
    | succ i => simpa using ih rest i

theorem filterMap_id_points (l : List (Option Typed.Method)) :
    (l.filterMap id).flatMap Typed.Method.points =
      l.flatMap fun m => (m.map Typed.Method.points).getD [] := by
  induction l with
  | nil => rfl
  | cons o os ih =>
    cases o with
    | none => exact ih
    | some m => exact congrArg (m.points ++ ·) ih

section Program

variable {cx : Setting} {fuel : Nat} {statements : List Expr} {ts : Tables} {body : Elaborated}
  {s : PassState}

/-- The methods of a program stand where their numbers say. -/
theorem madeProgram_method? (completes : (enteredMain ts).Completes s) {i : Nat}
    {m : Typed.Method} (found : s.methods[i]? = some (some m)) :
    (madeProgram cx body s).method? ⟨i⟩ = some m := by
  have full : ∀ j < s.methods.toList.length, ∃ m, s.methods.toList[j]? = some (some m) := by
    intro j bound
    obtain ⟨n, at_index, -⟩ := completes.made j (Nat.zero_le j) (by simpa using bound)
    exact ⟨n, by simpa using at_index⟩
  have placed : (madeProgram cx body s).methods[i]? = some m := by
    rw [← Array.getElem?_toList, madeProgram, Array.toList_filterMap,
      filterMap_id_getElem? full, Array.getElem?_toList, found]
    rfl
  obtain ⟨n, at_index, numbered, -⟩ := completes.made i (Nat.zero_le i)
    (Array.getElem?_eq_some_iff.1 found).1
  cases at_index.symm.trans found
  rw [Typed.Program.method?, placed]
  simp [numbered]

/-- The program knows every method for the number of arguments that it is called with. -/
theorem madeProgram_arities (completes : (enteredMain ts).Completes s) :
    s.Arities (madeProgram cx body s).arity := by
  intro key id member
  rcases completes.present key id member with earlier | ⟨m, found, same⟩
  · simp [enteredMain, PassState.start] at earlier
  · rw [Typed.Program.arity, madeProgram_method? completes found, Option.map_some, same]

theorem madeProgram_scoped (consistent : cx.definitions.Consistent)
    (run : elaborateBody (elaborateExpr cx fuel) mainPlace statements (enteredMain ts) =
      some (body, s)) : (madeProgram cx body s).Scoped := by
  have numbered : (enteredMain ts).frame.Numbered := FrameSlots.Numbered.empty.selfBound _ _
  obtain ⟨placed, -⟩ := elaborateBody_placed (elaborateExpr_placing consistent fuel) numbered run
  have arities : s.Arities (madeProgram cx body s).arity := madeProgram_arities placed.completes
  have room : (madeProgram cx body s).main.locals.length = s.frame.slots.length :=
    typedSlots_length _ _
  have self : mainPlace.activation.selfSlot.val < s.frame.slots.length :=
    Nat.lt_of_lt_of_le (FrameSlots.Numbered.empty.selfBound_lt _ _) placed.grows.slots
  refine ⟨⟨fun i slot found => placed.numbered.typedSlots _ found, ?_, ?_, ?_⟩, ?_⟩
  · rw [Scope.HasSlot, Typed.Method.scope, room]
    exact self
  · intro id member
    cases member
  · refine placed.inScope _ ⟨?_, fun t member => ?_, trivial⟩
      ⟨Nat.le_of_eq room.symm, arities⟩ _ List.mem_cons_self
    · rw [Scope.HasSlot, Typed.Method.scope, room]
      exact self
    · cases List.mem_singleton.1 member
      exact List.mem_cons_self
  · intro m member
    obtain ⟨i, -, inScope⟩ := madeProgram_methods placed.completes m member
    exact inScope _ arities

/-- Each point of the program is numbered once in the pass that makes it. -/
theorem madeProgram_points_nodup (consistent : cx.definitions.Consistent)
    (run : elaborateBody (elaborateExpr cx fuel) mainPlace statements (enteredMain ts) =
      some (body, s)) : (madeProgram cx body s).points.Nodup := by
  have numbered : (enteredMain ts).frame.Numbered := FrameSlots.Numbered.empty.selfBound _ _
  obtain ⟨placed, -⟩ := elaborateBody_placed (elaborateExpr_placing consistent fuel) numbered run
  rw [List.nodup_iff_count]
  intro x
  have counted := placed.counted x
  have main : fresh (PassState.start ts) (enteredMain ts) x = [Point.frame ⟨0⟩].count x :=
    fresh_frame (PassState.start ts) (enteredMain ts) rfl rfl rfl x
  have additive : fresh (PassState.start ts) (enteredMain ts) x + fresh (enteredMain ts) s x =
      fresh (PassState.start ts) s x := by
    refine fresh_add (fun old => ?_) placed.grows.used
    cases x <;> simp [PassState.used, PassState.start] at old
  have once : fresh (PassState.start ts) s x ≤ 1 := by
    simp only [fresh]
    split
    · omega
    · split <;> omega
  have before : (enteredMain ts).points = [] := rfl
  have points : (madeProgram cx body s).points =
      [.frame ⟨0⟩] ++ body.code.points ++ s.points := by
    rw [Typed.Program.points, madeProgram, Array.toList_filterMap, filterMap_id_points]
    rfl
  rw [before] at counted
  simp only [Typed.listPoints_cons, Typed.listPoints_nil, List.append_nil, List.count_nil] at counted
  rw [points, List.count_append, List.count_append]
  omega

end Program

end TypedBlocks.Inference

namespace TypedBlocks.Compilation

open Typed (InstanceId)

theorem ofBodies_exits {limits : Inference.Limits} {bodies : List (List Expr)} {c : Compilation}
    (compiled : ofBodies limits bodies = .ok c) :
    c.program.points.Nodup ∧ c.program.Scoped := by
  obtain ⟨definitions, collected, -, -, ts, s, run, -, -⟩ := ofBodies_steps compiled
  have consistent := Definitions.ofBodies_consistent collected
  obtain ⟨body, runBody, made⟩ := Inference.elaborateProgram_steps run
  rw [made]
  exact ⟨Inference.madeProgram_points_nodup consistent runBody,
    Inference.madeProgram_scoped consistent runBody⟩

/-- The exits of a compiled program are well scoped: frames, calls and loops are numbered apart, an
exit leaves the method or something in it that stands around the exit, slots are numbered by their
places, and a method that is called takes as many arguments as it is given. So no run of the program
loses an exit or misses a method. -/
theorem compiled_exits_scoped {options : Options} {text : String} {ds ds' : Diagnostics}
    {c : Compilation} (compiled : ofText options text ds = (.ok c, ds')) :
    c.program.points.Nodup ∧ c.program.Scoped ∧ ∀ fuel m,
      (c.program.runFrom fuel m).1 ≠ .fault .escapedReturn ∧
        (c.program.runFrom fuel m).1 ≠ .fault .escapedBreak ∧
          ∀ id, (c.program.runFrom fuel m).1 ≠ .fault (.unknownMethod id) := by
  obtain ⟨modules, -, -, compiled⟩ := ofText_steps compiled
  obtain ⟨distinct, whole⟩ := ofBodies_exits compiled
  exact ⟨distinct, whole, whole.runFrom_fault⟩

/-- A method that runs its block, and a block that leaves the call. -/
def breakingText : String := "def twice\n  yield\n  yield\nend\ntwice { break 1 }\n"

theorem breakingText_exits_scoped : ∃ c ds,
    ofText ⟨false, Inference.Limits.standard⟩ breakingText Diagnostics.empty = (.ok c, ds) ∧
      c.program.points.Nodup ∧ c.program.Scoped ∧ ∀ fuel m,
        (c.program.runFrom fuel m).1 ≠ .fault .escapedReturn ∧
          (c.program.runFrom fuel m).1 ≠ .fault .escapedBreak ∧
            ∀ id, (c.program.runFrom fuel m).1 ≠ .fault (.unknownMethod id) := by
  obtain ⟨c, ds, result⟩ := exists_compilation ⟨false, Inference.Limits.standard⟩ breakingText (by decide +kernel)
  exact ⟨c, ds, result, compiled_exits_scoped result⟩

end TypedBlocks.Compilation

import TypedBlocks.Compilation.Basic
import TypedBlocks.Proofs.ElaborationSteps
import TypedBlocks.Proofs.Outcomes

/-!
# Steps of a compilation

A program that compiles is the result of one pass, the last one: it began with tables that it left
as they were, and it noted no error.
-/
namespace TypedBlocks

open Inference (PassState Setting Tables Pass)

namespace Inference

open Pass

/-- The state in which the top-level body is elaborated. -/
def enteredMain (ts : Tables) : PassState :=
  { PassState.start ts with
    nextFrame := 1
    frame := (selfBound FrameSlots.empty [.main] Ty.main).2 }

def mainPlace : Place :=
  ⟨⟨[.main], "main", Ty.main, (selfBound FrameSlots.empty [.main] Ty.main).1,
    [(.program, .frame ⟨0⟩)], .body⟩, 0⟩

/-- The program made from its elaborated top level, with the state after it. -/
def madeProgram (cx : Setting) (body : Elaborated) (s : PassState) : Typed.Program where
  main :=
    { id := .main, name := "main", owner := none, selfType := Ty.main
      selfSlot := mainPlace.activation.selfSlot
      parameters := [], locals := s.frame.typedSlots s.tables, body := body.code
      returnType := body.ends.methodResult ⟨0⟩, frame := ⟨0⟩ }
  methods := s.methods.filterMap id
  captures := cx.captures.sorted
  layouts := sortedLayouts s.tables

theorem elaborateProgram_steps {cx : Setting} {fuel : Nat} {statements : List Expr} {ts : Tables}
    {p : Typed.Program} {s : PassState}
    (h : elaborateProgram cx fuel statements (PassState.start ts) = some (p, s)) :
    ∃ body, elaborateBody (elaborateExpr cx fuel) mainPlace statements (enteredMain ts) =
      some (body, s) ∧ p = madeProgram cx body s := by
  simp only [elaborateProgram] at h
  rw [bind_run newFrame_run, bind_run (bindSelf_run _ _)] at h
  obtain ⟨body, s₁, run, h⟩ := bind_eq_some.1 h
  rw [bind_run get_run] at h
  obtain ⟨rfl, rfl⟩ := pure_eq_some.1 h
  exact ⟨body, run, rfl⟩

/-- The tables that repeated passes end with, if they end. -/
def lastTables? (cx : Setting) (fuel : Nat) (statements : List Expr) : Nat → Tables → Option Tables
  | 0, _ => none
  | left + 1, ts =>
    match (elaborateProgram cx fuel statements).run (PassState.start ts) with
    | none => none
    | some (_, s) =>
      if !s.tables.sameLayouts ts then lastTables? cx fuel statements left s.tables.layoutsOnly
      else if s.tables.same ts then some ts
      else lastTables? cx fuel statements left s.tables

section Passes

variable {cx : Setting} {fuel : Nat} {statements : List Expr} {left : Nat} {ts last : Tables}

/-- What every pass keeps that does not change the layouts, and what the layouts alone have, holds of
the tables that repeated passes end with. -/
theorem lastTables?_kept {P : Tables → Prop} (start : P ts)
    (keeps : ∀ ts q s, P ts → elaborateProgram cx fuel statements (PassState.start ts) =
      some (q, s) → s.tables.sameLayouts ts = true → P s.tables)
    (resets : ∀ ts q s, P ts → elaborateProgram cx fuel statements (PassState.start ts) =
      some (q, s) → P s.tables.layoutsOnly)
    (found : lastTables? cx fuel statements left ts = some last) : P last := by
  induction left generalizing ts with
  | zero => cases found
  | succ left ih =>
    rw [lastTables?] at found
    split at found
    · cases found
    · rename_i q s run
      split at found
      · exact ih (resets ts q s start run) found
      · rename_i layouts
        split at found
        · cases found
          exact start
        · exact ih (keeps ts q s start run (by simpa using layouts)) found

/-- Repeated passes end with one that leaves its tables as they are, unless there are none of those. -/
theorem iterate_cases (cx : Setting) (fuel : Nat) (statements : List Expr) (left : Nat) (ts : Tables) :
    (lastTables? cx fuel statements left ts = none ∧
      (iterate cx fuel statements left ts = .error .outOfFuel ∨
        iterate cx fuel statements left ts = .error (.errors [.noFixedPoint cx.limits.maxPasses]))) ∨
    ∃ last p s, lastTables? cx fuel statements left ts = some last ∧
      elaborateProgram cx fuel statements (PassState.start last) = some (p, s) ∧
      s.tables.same last = true ∧ iterate cx fuel statements left ts =
        if s.errors.isEmpty then .ok p else .error (.errors (distinctErrors s.errors)) := by
  induction left generalizing ts with
  | zero => exact .inl ⟨rfl, .inr rfl⟩
  | succ left ih =>
    rw [lastTables?, iterate]
    cases run : (elaborateProgram cx fuel statements).run (PassState.start ts) with
    | none => exact .inl ⟨rfl, .inl rfl⟩
    | some result =>
      obtain ⟨p, s⟩ := result
      dsimp only
      split
      · exact ih _
      split
      · rename_i fixed
        exact .inr ⟨ts, p, s, rfl, run, fixed, rfl⟩
      · exact ih _

/-- Inference ends with a pass that leaves its tables as they are and finds no error. -/
theorem iterate_kept {p : Typed.Program} {P : Tables → Prop} (start : P ts)
    (keeps : ∀ ts q s, P ts → elaborateProgram cx fuel statements (PassState.start ts) =
      some (q, s) → s.tables.sameLayouts ts = true → P s.tables)
    (resets : ∀ ts q s, P ts → elaborateProgram cx fuel statements (PassState.start ts) =
      some (q, s) → P s.tables.layoutsOnly)
    (h : iterate cx fuel statements left ts = .ok p) :
    ∃ ts' s, P ts' ∧ lastTables? cx fuel statements left ts = some ts' ∧
      elaborateProgram cx fuel statements (PassState.start ts') = some (p, s) ∧
      s.tables.same ts' = true ∧ s.errors = [] := by
  rcases iterate_cases cx fuel statements left ts with
    ⟨-, failed | failed⟩ | ⟨last, q, s, found, run, fixed, ends⟩
  · cases failed.symm.trans h
  · cases failed.symm.trans h
  · rw [ends] at h
    split at h
    · rename_i sound
      cases h
      exact ⟨last, s, lastTables?_kept start keeps resets found, found, run, fixed,
        by simpa using sound⟩
    · cases h

/-- What every pass keeps holds of the tables of the last one. -/
theorem iterate_steps {p : Typed.Program} {P : Tables → Prop} (start : P ts)
    (keeps : ∀ ts q s, P ts → elaborateProgram cx fuel statements (PassState.start ts) =
      some (q, s) → P s.tables ∧ P s.tables.layoutsOnly)
    (h : iterate cx fuel statements left ts = .ok p) :
    ∃ ts' s, P ts' ∧ lastTables? cx fuel statements left ts = some ts' ∧
      elaborateProgram cx fuel statements (PassState.start ts') = some (p, s) ∧
      s.tables.same ts' = true ∧ s.errors = [] :=
  iterate_kept start (fun ts q s kept run _ => (keeps ts q s kept run).1)
    (fun ts q s kept run => (keeps ts q s kept run).2) h

/-- What inference reports are the errors of the pass that leaves its tables as they were, unless it is
that there was none. -/
theorem iterate_errors {es : List StaticError}
    (h : iterate cx fuel statements left ts = .error (.errors es)) :
    es = [.noFixedPoint cx.limits.maxPasses] ∨ ∃ ts' p s,
      lastTables? cx fuel statements left ts = some ts' ∧
        elaborateProgram cx fuel statements (PassState.start ts') = some (p, s) ∧ s.errors ≠ [] ∧
          es = distinctErrors s.errors := by
  rcases iterate_cases cx fuel statements left ts with
    ⟨-, failed | failed⟩ | ⟨last, p, s, found, run, -, ends⟩
  · cases failed.symm.trans h
  · cases failed.symm.trans h
    exact .inl rfl
  · rw [ends] at h
    split at h
    · cases h
    · rename_i faulty
      cases h
      exact .inr ⟨last, p, s, found, run, by simpa using faulty, rfl⟩

end Passes

end Inference

namespace Compilation

theorem ofBodies_inferred {limits : Inference.Limits} {bodies : List (List Expr)}
    {c : Compilation} (h : ofBodies limits bodies = .ok c) :
    ∃ definitions, Definitions.ofBodies bodies = .ok definitions ∧
      resolveExits bodies = .ok c.exits ∧ c.captures = bindBlocks bodies ∧
      Inference.infer ⟨definitions, c.exits, c.captures, limits⟩ Inference.ampleFuel bodies =
        .ok c.program := by
  simp only [ofBodies] at h
  split at h
  · cases h
  · rename_i definitions collected
    split at h
    · cases h
    · rename_i exits resolved
      split at h
      · cases h
      · cases h
      · rename_i program inferred
        cases h
        exact ⟨definitions, collected, resolved, rfl, inferred⟩

theorem ofBodies_steps {limits : Inference.Limits} {bodies : List (List Expr)} {c : Compilation}
    (h : ofBodies limits bodies = .ok c) :
    ∃ definitions, Definitions.ofBodies bodies = .ok definitions ∧
      resolveExits bodies = .ok c.exits ∧ c.captures = bindBlocks bodies ∧
      ∃ ts s, Inference.elaborateProgram ⟨definitions, c.exits, c.captures, limits⟩
          Inference.ampleFuel bodies.flatten (PassState.start ts) = some (c.program, s) ∧
        s.tables.same ts = true ∧ s.errors = [] := by
  obtain ⟨definitions, collected, resolved, bound, inferred⟩ := ofBodies_inferred h
  obtain ⟨ts, s, -, -, run⟩ := Inference.iterate_steps (P := fun _ => True) trivial
    (fun _ _ _ _ _ => ⟨trivial, trivial⟩) inferred
  exact ⟨definitions, collected, resolved, bound, ts, s, run⟩

theorem run_bind_ok {α β : Type} {x : Compile α} {f : α → Compile β} {ds ds' : Diagnostics}
    {b : β} (h : (x >>= f).run.run ds = (.ok b, ds')) :
    ∃ a ds₁, x.run.run ds = (.ok a, ds₁) ∧ (f a).run.run ds₁ = (.ok b, ds') := by
  change (match x.run.run ds with
    | (r, ds₁) => (ExceptT.bindCont f r).run ds₁) = _ at h
  cases first : x.run.run ds with
  | mk r ds₁ =>
    rw [first] at h
    cases r with
    | ok a => exact ⟨a, ds₁, rfl, h⟩
    | error e => cases h

/-- A text that compiles is read into modules whose bodies compile. -/
theorem ofText_steps {options : Options} {text : String} {ds ds' : Diagnostics} {c : Compilation}
    (h : ofText options text ds = (.ok c, ds')) :
    ∃ modules ds₁, (Compile.readWithPrelude options text).run.run ds = (.ok modules, ds₁) ∧
      ofBodies options.limits (modules.map (·.body)) = .ok c := by
  obtain ⟨modules, ds₁, read, h⟩ := run_bind_ok h
  refine ⟨modules, ds₁, read, ?_⟩
  split at h
  · rename_i c' compiled
    cases h
    exact compiled
  · cases h
  · cases h

/-- A text that compiles gives a compilation; what was computed of it holds. -/
theorem exists_compiled (options : Options) (text : String) (p : Compilation → Bool)
    (holds : (ofText options text Diagnostics.empty).1.toOption.any p = true) :
    ∃ c ds, ofText options text Diagnostics.empty = (.ok c, ds) ∧ p c = true := by
  obtain ⟨c, compiled, sound⟩ := exists_value _ p holds
  exact ⟨c, _, Prod.ext compiled rfl, sound⟩

theorem exists_compilation (options : Options) (text : String)
    (compiles : (ofText options text Diagnostics.empty).1.isOk = true) :
    ∃ c ds, ofText options text Diagnostics.empty = (.ok c, ds) := by
  obtain ⟨c, compiled⟩ := exists_ok _ compiles
  exact ⟨c, _, Prod.ext compiled rfl⟩

end Compilation

end TypedBlocks

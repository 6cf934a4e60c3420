import TypedBlocks.Proofs.AssignedCode
import TypedBlocks.Proofs.AssignedRuns

/-!
# Reads of unassigned variables

The top level starts with nothing but `self`, and all methods that it comes to call obey the rules of
definite assignment when it is elaborated. So a run of a compiled program reads nil from a variable
that is not assigned only with a type that has nil.
-/
namespace TypedBlocks

namespace Inference

open Typed (InstanceId SlotId)
open Pass

variable {cx : Setting} {fuel : Nat} {statements : List Expr} {ts : Tables} {body : Elaborated}
  {s : PassState}

/-- The top level starts with `self`. -/
theorem enteredMain_ready (known : ts.Known cx .all) :
    (enteredMain ts).Ready cx (.only [.main]) .main mainPlace ∧
      (enteredMain ts).Covered (.only [.main])
        (fun x => x = mainPlace.activation.selfSlot ∨ x ∈ []) mainPlace := by
  have main : ScopeVar.Known cx .all ⟨[.main], "self"⟩ :=
    (mainPlace_known (V := .all)).activation.path.mono (Nat.zero_le _)
  exact ready_of_root .main mainPlace_known (enteredMain_known known) rfl rfl (.inl rfl)
    .nil nofun (selfBound_holds FrameSlots.Keyed.empty main)

/-- A program without errors whose calls drop only constants as receivers reads nothing unassigned
that is never nil. -/
theorem madeProgram_definite (consistent : cx.definitions.Consistent) (known : ts.Known cx .all)
    (sound : s.errors = [])
    (run : elaborateBody (elaboratePlain cx fuel) mainPlace statements (enteredMain ts) =
      some (body, s)) : ∀ m ∈ (madeProgram cx body s).allMethods, m.Definite := by
  obtain ⟨ready, covered⟩ := enteredMain_ready known
  obtain ⟨makes, -⟩ := elaborateBody_makes (elaboratePlain_assigning consistent fuel) ready covered
    sound run
  refine List.forall_mem_cons.2 ⟨⟨_, makes.alone⟩, fun m member => ?_⟩
  obtain ⟨i, definite⟩ := madeProgram_methods makes.moves.finishes m (Array.mem_toList_iff.1 member)
  exact definite

end Inference

namespace Compilation

open Inference

theorem ofBodies_definite {limits : Limits} {bodies : List (List Expr)} {c : Compilation}
    (compiled : ofBodies limits bodies = .ok c) (plain : plainReceivers limits bodies = true) :
    ∀ m ∈ c.program.allMethods, m.Definite := by
  obtain ⟨cx, body, s, consistent, run, made, known, -, sound⟩ := ofBodies_plain compiled plain
  rw [made]
  exact madeProgram_definite consistent known.tables sound run

/-- A run of a compiled program in which only constants stand as receivers of calls that make objects
or call libraries is the same with and without watching. Whenever it reads a slot that has not been
assigned since the scope of the slot was last entered, the read gives nil, and the type of the read
has nil. -/
theorem compiled_unassigned_reads_nil {options : Options} {text : String} {ds ds' : Diagnostics}
    {c : Compilation} (compiled : ofText options text ds = (.ok c, ds'))
    (plain : textPlainReceivers options text ds = true) (fuel : Nat) (m : Machine) :
    c.program.runFrom fuel m =
        ((c.program.watchFrom fuel m).1, (c.program.watchFrom fuel m).2.machine) ∧
      ∀ ev ∈ (c.program.watchFrom fuel m).2.events, ∀ slot, ev.expr.node = .slot slot →
        slot ∉ ev.assigned → ev.value = .nil ∧ ∃ t, ev.expr.ty = some t ∧ Ty.nil ≤ t := by
  obtain ⟨bodies, compiled, plain⟩ := ofText_plain compiled plain
  obtain ⟨globals, constants, typed⟩ := ofBodies_typed compiled
  have parameters : c.program.main.parameters = [] := by
    obtain ⟨definitions, -, -, -, body, s, -, made, -⟩ := ofBodies_last compiled
    rw [made]
    rfl
  exact ⟨c.program.watchFrom_plain fuel m, Typed.watchFrom_sound typed (ofBodies_exits compiled).2
    (ofBodies_definite compiled plain) parameters fuel m⟩

/-- A loop that runs a block, and leaves it early. Its variables are emptied for every round. -/
def loopingText : String :=
  "def each(n)\n  i = 0\n  while i < n\n    yield i\n    i = i + 1\n  end\n  nil\nend\n" ++
    "x = 1 if $go\neach(3) do |k|\n  y = k if k > 0\n  break y if k > 1\n  x = y\nend\nx\n"

theorem loopingText_unassigned_reads_nil : ∃ c ds,
    ofText ⟨false, Limits.standard⟩ loopingText Diagnostics.empty = (.ok c, ds) ∧
      textPlainReceivers ⟨false, Limits.standard⟩ loopingText Diagnostics.empty = true ∧
      ((c.program.watchFrom 60 Machine.empty).2.events.any fun ev =>
        match ev.expr.node with
        | .slot slot => !ev.assigned.contains slot
        | _ => false) = true ∧
      ∀ fuel m, c.program.runFrom fuel m =
          ((c.program.watchFrom fuel m).1, (c.program.watchFrom fuel m).2.machine) ∧
        ∀ ev ∈ (c.program.watchFrom fuel m).2.events, ∀ slot, ev.expr.node = .slot slot →
          slot ∉ ev.assigned → ev.value = .nil ∧ ∃ t, ev.expr.ty = some t ∧ Ty.nil ≤ t := by
  have plain : textPlainReceivers ⟨false, Limits.standard⟩ loopingText Diagnostics.empty = true := by
    decide +kernel
  obtain ⟨c, ds, result, reads⟩ := exists_compiled ⟨false, Limits.standard⟩ loopingText (fun c =>
      (c.program.watchFrom 60 Machine.empty).2.events.any fun ev =>
        match ev.expr.node with
        | .slot slot => !ev.assigned.contains slot
        | _ => false) (by decide +kernel)
  exact ⟨c, ds, result, plain, reads, fun fuel m => compiled_unassigned_reads_nil result plain fuel m⟩

end Compilation

end TypedBlocks

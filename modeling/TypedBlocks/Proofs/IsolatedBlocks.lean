import TypedBlocks.Proofs.CompiledExits
import TypedBlocks.Proofs.FixedTables
import TypedBlocks.Proofs.LaidCode

/-!
# Isolated blocks

All scopes of a method share the slots of its frame, and all elaborations of one block or call share
the slots of its scope. Still the blocks of compiled programs are isolated from the methods that yield
to them, since no scope is entered inside which another one is live.
-/
namespace TypedBlocks

namespace Inference

open Pass

variable {cx : Setting} {fuel : Nat} {statements : List Expr} {ts : Tables} {body : Elaborated}
  {s : PassState}

/-- All methods of a program that a pass has made are laid out in scopes. -/
theorem madeProgram_laid (consistent : cx.definitions.Consistent) (known : ts.Known cx .all)
    (run : elaborateBody (elaborateExpr cx fuel) mainPlace statements (enteredMain ts) =
      some (body, s)) : ∀ m ∈ (madeProgram cx body s).allMethods, LaidMethod m := by
  have main : ScopeVar.Known cx .all ⟨[.main], "self"⟩ :=
    (mainPlace_known (V := .all)).activation.path.mono (Nat.zero_le _)
  have holds := selfBound_holds (t := Ty.main) FrameSlots.Keyed.empty main
  have seated : Seated cx (.only [.main]) mainPlace (enteredMain ts) :=
    { place := mainPlace_known
      known := enteredMain_known known
      innermost := fun q there _ => there
      lives := ⟨rfl, holds.kept rfl, trivial⟩ }
  have lays := elaborateBody_lays (elaborateExpr_laying consistent fuel) seated run
  refine List.forall_mem_cons.2 ⟨⟨s.frame, .main, List.forall_mem_singleton.2 ?_,
    lays.laid _ List.mem_cons_self⟩, fun m member => ?_⟩
  · exact (holds.mono lays.advances.grows.labels).kept rfl
  · obtain ⟨i, laid⟩ := madeProgram_methods lays.advances.finishes m (Array.mem_toList_iff.1 member)
    exact laid

end Inference

namespace Compilation

/-- In each method of a compiled program, a yield stands in an expanded method. Evaluating the block
that it runs, from any machine and to a value, an exit or a fault, changes no slot of the expansion:
neither its `self` nor its parameters, its variables and those of the blocks written in it, all of
which the block has none of. Entering an expansion or a block empties and binds only slots that neither
the method nor a scope that is active there uses. -/
theorem compiled_blocks_isolated {options : Options} {text : String} {ds ds' : Diagnostics}
    {c : Compilation} (compiled : ofText options text ds = (.ok c, ds')) :
    ∀ m ∈ c.program.allMethods, m.Isolates c.program := by
  obtain ⟨modules, -, -, compiled⟩ := ofText_steps compiled
  obtain ⟨definitions, collected, -, -, body, s, run, made, known, -, -⟩ := ofBodies_last compiled
  intro m member
  rw [made] at member
  exact (Inference.madeProgram_laid (Definitions.ofBodies_consistent collected) known.tables run m
    member).isolates c.program

/-- A block that writes to its parameter, and one that yields to another block. -/
def rewritingText : String :=
  "def each\n  a = 1\n  yield a\n  a\nend\ndef both\n  b = each { |x| x = 2; yield x }\n  yield b\n  b\nend\n" ++
    "both { |y| y = 3; y }\n"

theorem rewritingText_isolated : ∃ c ds,
    ofText ⟨false, Inference.Limits.standard⟩ rewritingText Diagnostics.empty = (.ok c, ds) ∧
      (match (c.program.run 60).1 with
        | .value (.int n) => n == 1
        | _ => false) = true ∧
      ∀ m ∈ c.program.allMethods, m.Isolates c.program := by
  obtain ⟨c, ds, result, runs⟩ := exists_compiled ⟨false, Inference.Limits.standard⟩ rewritingText
    (fun c => match (c.program.run 60).1 with
      | .value (.int n) => n == 1
      | _ => false) (by decide +kernel)
  exact ⟨c, ds, result, runs, compiled_blocks_isolated result⟩

end Compilation

end TypedBlocks

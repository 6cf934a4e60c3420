import TypedBlocks.Proofs.FixedTables
import TypedBlocks.Proofs.Sessions
import TypedBlocks.Proofs.SlotVariables
import TypedBlocks.Proofs.SourceNames

/-!
# Slots without types

The tables of a compiled program know only variables of its text. So they have no types for the slots
of `self` and of operands, which are typed where they are bound and nowhere else.
-/
namespace TypedBlocks

/-- Expressions and names of texts. -/
def Vocabulary.sourced : Vocabulary := ⟨Expr.Sourced, fun _ => True, SourceName, fun _ => True⟩

theorem Expr.Sourced.parts {e : Expr} (sourced : e.Sourced) : ∀ d ∈ e.parts, d.Sourced := by
  cases sourced with
  | intro own parts parameters bodies => exact parts

theorem Expr.Sourced.own {e : Expr} (sourced : e.Sourced) : ∀ n ∈ e.ownNames, SourceName n := by
  cases sourced with
  | intro own parts parameters bodies => exact own

theorem Expr.Sourced.methods {e : Expr} (sourced : e.Sourced) : ∀ m ∈ e.form.methods, m.Sourced := by
  cases sourced with
  | intro own parts parameters bodies =>
    exact fun m member => ⟨parameters m member, bodies m member⟩

/-- What a text defines is written with names of texts. -/
theorem Vocabulary.sourced_covers {cx : Inference.Setting}
    (methods : ∀ m ∈ cx.definitions.methods, m.definition.Sourced) : sourced.Covers cx where
  parts _ written := written.parts
  read e v written form := written.own v.name (by simp [Expr.ownNames, form])
  assigned e v _ _ written form := written.own v.name (by simp [Expr.ownNames, form])
  calls e _ _ _ _ block written form := by
    refine ⟨trivial, fun b given => ⟨trivial, fun p member => written.own p.name ?_⟩⟩
    cases given
    simpa [Expr.ownNames, form] using ⟨p, member, rfl⟩
  classes _ _ := trivial
  results _ _ _ _ _ result := ForeignEntry.resultTy?_known (fun _ _ => trivial) result
  methods id m found := by
    have sourced := methods m (Array.mem_of_getElem? found)
    exact ⟨sourced.parameters, sourced.body⟩

namespace Inference

open Typed (SlotId Context)
open Pass

section Slots

variable {cx : Setting} {F : Tables} {f : FrameSlots} {s : SlotId}

/-- Variables with types are variables of the text. -/
theorem Tables.Known.sourceName (sourced : F.Known cx .sourced) {k : ScopeVar} {t : Ty}
    (entry : F.var? k = some t) : SourceName k.name := by
  obtain ⟨l, listed, same⟩ := lookup_mem entry
  have known : SourceName l.name := (sourced.vars.each _ listed).1.2
  have name : (k.name == l.name && samePath k.path l.path) = true := same
  rw [Bool.and_eq_true, beq_iff_eq] at name
  exact name.1 ▸ known

/-- A hidden slot has no type in a frame that takes its types from the tables alone. -/
theorem hidden_untyped (sourced : F.Known cx .sourced)
    (named : ∀ e ∈ f.slots, ∀ k ∈ e.2, e.1.name = k.name) {bound : List (SlotId × Ty)}
    (hidden : Context.Hidden ⟨f.untyped.typedSlots F, bound⟩ s) :
    Context.slotTy? ⟨f.untyped.typedSlots F, bound⟩ s = none := by
  obtain ⟨slot, found, hidden⟩ := hidden
  rw [Context.slotTy?, found, Option.bind_some]
  simp only [Context.slot?, FrameSlots.typedSlots, FrameSlots.untyped, List.getElem?_map,
    Option.map_map, Option.map_eq_some_iff] at found
  obtain ⟨⟨old, key⟩, place, same⟩ := found
  dsimp only [Function.comp_apply] at same
  split at same
  · rename_i t entry
    obtain ⟨k, rfl, entry⟩ := Option.bind_eq_some_iff.1 entry
    obtain ⟨self, temporary⟩ := sourced.sourceName entry
    have name : old.name = k.name := named _ (List.mem_of_getElem? place) k rfl
    subst same
    refine absurd ?_ hidden
    rw [Typed.Slot.isSource, name, Bool.and_eq_true, bne_iff_ne, Bool.not_eq_true', ← Bool.not_eq_true,
      List.isPrefixOf_iff_prefix]
    exact ⟨self, temporary⟩
  · subst same
    rfl

end Slots

end Inference

namespace Compile

open Compilation (run_bind_ok)

variable {options : Compilation.Options} {text : String} {ds ds' : Diagnostics}

/-- A text that is read is a module. -/
theorem read_module {first next : NodeId} {m : Module}
    (reads : (read first text).run.run ds = (.ok (m, next), ds')) :
    Module.read first text = .ok (m, next) := by
  rw [read_run] at reads
  cases result : Module.read first text with
  | error e =>
    rw [result] at reads
    rcases e with e | e | _ <;> cases reads
  | ok r =>
    rw [result] at reads
    dsimp only at reads
    split at reads
    · cases reads
    · cases reads
      rfl

theorem readWithPrelude_sourced {modules : List Module}
    (reads : (readWithPrelude options text).run.run ds = (.ok modules, ds')) :
    ∀ m ∈ modules, ∀ e ∈ m.body, e.Sourced := by
  unfold readWithPrelude at reads
  split at reads
  · obtain ⟨⟨library, next⟩, ds₁, first, reads⟩ := run_bind_ok reads
    obtain ⟨⟨program, _⟩, ds₂, second, reads⟩ := run_bind_ok reads
    cases reads
    exact List.forall_mem_cons.2 ⟨Module.read_sourced (read_module first),
      List.forall_mem_singleton.2 (Module.read_sourced (read_module second))⟩
  · obtain ⟨⟨program, _⟩, ds₁, first, reads⟩ := run_bind_ok reads
    cases reads
    exact List.forall_mem_singleton.2 (Module.read_sourced (read_module first))

end Compile

namespace Compilation

open Inference

/-- The tables of the last pass know only variables of the text. -/
theorem lastTables?_sourced {bodies : List (List Expr)} {cx : Setting} {last : Tables}
    (collected : Definitions.ofBodies bodies = .ok cx.definitions)
    (sourced : ∀ e ∈ bodies.flatten, e.Sourced) {left : Nat}
    (found : lastTables? cx ampleFuel bodies.flatten left Tables.empty = some last) :
    last.Known cx .sourced := by
  have methods : ∀ m ∈ cx.definitions.methods, m.definition.Sourced := by
    intro m member
    obtain ⟨e, statement, defined⟩ := Definitions.ofBodies_methods collected member
    exact (sourced e statement).methods _ defined
  have pass {ts q s} (known : Tables.Known cx .sourced ts)
      (run : elaborateProgram cx ampleFuel bodies.flatten (PassState.start ts) = some (q, s)) :=
    (pass_known (Vocabulary.sourced_covers methods) (Definitions.ofBodies_consistent collected)
      sourced known run).1.tables
  exact lastTables?_kept empty_known (fun ts q s known run _ => pass known run)
    (fun ts q s known run => (pass known run).layoutsOnly) found

end Compilation

end TypedBlocks

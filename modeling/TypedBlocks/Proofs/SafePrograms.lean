import TypedBlocks.Proofs.CurrentObjects
import TypedBlocks.Proofs.FaithfulRuns
import TypedBlocks.Proofs.IsolatedBlocks
import TypedBlocks.Proofs.SentValues
import TypedBlocks.Proofs.UntypedSlots

/-!
# Faithful runs of compiled programs

Code that is checked against the types of the last pass and laid out in scopes is safe: what is bound
at a place is kept while scopes are entered there, and assignments go to slots that have types, which
slots that are bound have not. So a compiled program is safe, unless it makes objects that pose as
other values, and its runs are faithful up to the first read of a variable that has not been set and
whose type has no nil.
-/
namespace TypedBlocks

namespace Typed

theorem Expr.Throughout.imp {P Q : Ty → Prop} {e : Expr} (all : e.Throughout P)
    (implies : ∀ t, P t → Q t) : e.Throughout Q :=
  fun d inside t member => implies t (all d inside t member)

/-- Some node of the program makes an object of a class that other values are of. -/
def Program.makesValueObject (p : Program) : Bool :=
  p.allMethods.any fun m => m.body.nodes.any fun e => e.node.makes?.any valueClasses.contains

theorem Program.makesValueObject_eq_false {p : Program} : p.makesValueObject = false ↔
    ∀ e, p.Within e → ∀ c ∈ e.node.makes?, c ∉ valueClasses := by
  constructor
  · rintro none e ⟨m, member, inside⟩ c makes poses
    have some : p.makesValueObject = true :=
      List.any_eq_true.2 ⟨m, member, List.any_eq_true.2 ⟨e, Expr.mem_nodes.2 inside,
        (Option.any_eq_true _ _).2 ⟨c, makes, List.contains_iff_mem.2 poses⟩⟩⟩
    rw [none] at some
    cases some
  · intro ordinary
    refine Bool.eq_false_iff.2 fun some => ?_
    obtain ⟨m, member, some⟩ := List.any_eq_true.1 some
    obtain ⟨e, node, some⟩ := List.any_eq_true.1 some
    obtain ⟨c, makes, poses⟩ := (Option.any_eq_true _ _).1 some
    exact ordinary e ⟨m, member, Expr.mem_nodes.1 node⟩ c makes (List.contains_iff_mem.1 poses)

end Typed

namespace Inference

open Typed (SlotId Context Signatures)
open Pass

section Code

variable {σ : Signatures} {Γ : Context} {f : FrameSlots} {live : LiveScopes}
  {path : ScopeChain} {homes : List ScopeChain} {e : Typed.Expr}

/-- The slots that are bound at a place are kept there, and have no types of their own. -/
def FrameSlots.Guards (f : FrameSlots) (live : LiveScopes) (Γ : Context) : Prop :=
  ∀ b ∈ Γ.bound, f.Kept live b.1 ∧ Γ.slotTy? b.1 = none

theorem FrameSlots.Guards.enter (guards : f.Guards live Γ) (inner : ScopeChain) :
    f.Guards (live.enter inner) Γ := fun b member =>
  ⟨(guards b member).1.mono (List.prefix_refl _) fun _ => .inl, (guards b member).2⟩

theorem FrameSlots.Guards.bind (guards : f.Guards live Γ) {bound : List (SlotId × Ty)}
    (new : ∀ b ∈ bound, f.Kept live b.1 ∧ Γ.slotTy? b.1 = none) : f.Guards live (Γ.bind bound) :=
  List.forall_mem_append.2 ⟨new, guards⟩

/-- A node of code that is laid out in scopes writes no slot that is bound where it stands. -/
theorem Laid.spares_bound (laid : Laid f live path homes e) (guards : f.Guards live Γ)
    (rule : e.Rule σ Γ) (owns : e.node.Owns Γ) : ∀ b ∈ Γ.bound, b.1 ∉ e.node.writes := by
  intro b member written
  have ⟨kept, untyped⟩ := guards b member
  cases laid with
  | call entered _ opens _ | block entered _ _ _ opens _ =>
    rw [(Typed.Node.entered entered).2] at written
    exact kept.not_loose ((opens.slots _ written).loose opens.admits)
  | plain stays names writes staying =>
    rcases e with ⟨ty, node⟩
    cases node with
    | assign s value =>
      obtain ⟨-, t, u, -, typed, -⟩ := rule
      rw [← List.mem_singleton.1 written, untyped] at typed
      cases typed
    | dispatch scrutinees temps arms => exact owns.fresh b member written
    | inline c => cases stays
    | yield parameters locals arguments body => cases stays
    | _ => cases written

/-- Checked code that is laid out in scopes is safe, if its types are proper and the objects that it
makes are no other values. -/
theorem Laid.safe (checked : e.Checked σ Γ) (laid : Laid f live path homes e)
    (types : e.Throughout Ty.Proper)
    (objects : ∀ d : Typed.Expr, d.Inside e → ∀ c ∈ d.node.makes?, c ∉ valueClasses)
    (untyped : ∀ s, Γ.Hidden s → Γ.slotTy? s = none) (guards : f.Guards live Γ) :
    e.Safe σ Γ := by
  induction checked generalizing live path homes with
  | @intro Γ e rule owns parts ih =>
    have apart : e.node.Apart Γ :=
      { spares := laid.spares_bound guards rule owns
        untyped := fun s binds => untyped s (owns.hidden s binds)
        once := by
          have once := owns.once
          rcases e with ⟨ty, node⟩
          cases node with
          | inline c => exact List.nodup_singleton _
          | _ => exact once }
    have part {q : Context × Typed.Expr} (member : q ∈ e.node.partsIn Γ) (direct : q.2 ∈ e.node.parts)
        {live' : LiveScopes} {path' : ScopeChain} {homes' : List ScopeChain}
        (laid : Laid f live' path' homes' q.2) (same : q.1.slots = Γ.slots)
        (guards : f.Guards live' q.1) : q.2.Safe σ q.1 := by
      have untyped : ∀ s, q.1.Hidden s → q.1.slotTy? s = none := by
        intro s
        rw [Context.Hidden, Context.slotTy?, Context.slot?, same]
        exact untyped s
      exact ih q member laid (fun d inside => types d (.part direct inside))
        (fun d inside => objects d (.part direct inside)) untyped guards
    refine .intro rule (types e (.self e)) apart (objects e (.self e)) fun q member => ?_
    cases laid with
    | plain stays names writes staying =>
      rcases e with ⟨ty, node⟩
      cases node with
      | dispatch scrutinees temps arms =>
        rcases List.mem_append.1 member with operand | body
        · obtain ⟨d, scrutinee, rfl⟩ := List.mem_map.1 operand
          have direct : d ∈ (Typed.Node.dispatch scrutinees temps arms).parts :=
            List.mem_append_left _ (List.mem_append_left _ scrutinee)
          exact part member direct (staying d direct) rfl guards
        · obtain ⟨arm, listed, rfl⟩ := List.mem_map.1 body
          have direct : arm.body ∈ (Typed.Node.dispatch scrutinees temps arms).parts :=
            List.mem_append_left _ (List.mem_append_right _ (List.mem_map_of_mem listed))
          refine part member direct (staying _ direct) rfl (guards.bind fun b bound => ?_)
          have temp : b.1 ∈ temps := (List.of_mem_zip bound).1
          exact ⟨names b.1 temp, apart.untyped b.1 temp⟩
      | inline c => cases stays
      | yield parameters locals arguments body => cases stays
      | _ =>
        obtain ⟨d, direct, rfl⟩ := List.mem_map.1 member
        exact part member direct (staying d direct) rfl guards
    | call entered staying opens body =>
      rcases e with ⟨ty, node⟩
      cases node <;> cases entered
      rename_i c
      rcases List.mem_append.1 member with operand | inner
      · obtain ⟨d, direct, rfl⟩ := List.mem_map.1 operand
        exact part member (List.mem_append_left _ direct) (staying d direct) rfl guards
      · cases List.mem_singleton.1 inner
        refine part member (List.mem_append_right _ List.mem_cons_self) body rfl
          ((guards.enter _).bind fun b bound => ?_)
        obtain ⟨t, -, rfl⟩ := List.mem_map.1 bound
        exact ⟨opens.bound c.selfSlot List.mem_cons_self, apart.untyped c.selfSlot List.mem_cons_self⟩
    | block entered staying outer beside opens body =>
      rcases e with ⟨ty, node⟩
      cases node <;> cases entered
      obtain ⟨d, direct, rfl⟩ := List.mem_map.1 member
      rcases Typed.Node.mem_parts.1 direct with argument | ⟨x, entered, rfl⟩
      · exact part member direct (staying d argument) rfl guards
      · cases entered
        exact part member direct body rfl (guards.enter _)

end Code

section Types

variable {L : List (String × List (String × Ty))} {cx : Setting} {F : Tables}

theorem SimpleTy.known_all (s : SimpleTy) : s.Known .all := by
  cases s <;> trivial

/-- Inference leaves known types only for known ones. -/
theorem known_closed (known : KnownLayouts L) : Closed L (Ty.Known .all) cx where
  simple s := .simple (SimpleTy.known_all s)
  join _ _ := .join
  member _ each m := each.member
  object ts layouts c := .object trivial (layouts ▸ known.vars c)
  instanceVar ts layouts c name := by
    have tables : ({ Tables.empty with layouts := ts.layouts } : Tables).Known cx .all :=
      { empty_known with layouts := layouts ▸ known }
    rw [instanceTy]
    split
    · rename_i t found
      exact tables.withLayouts (tables.instanceVar found).known
    · exact .nil
  foreign := (Vocabulary.all_covers cx).results

theorem Tables.Known.ofSort (known : F.Known cx .all) : F.OfSort (Ty.Known .all) where
  vars e member := (known.vars.each e member).2
  methods e member := (known.methods.each e member).2
  globals e member := (known.globals.each e member).2
  constants e member := (known.constants.each e member).2

theorem Tables.Known.signatures (known : F.Known cx .all)
    {method? : Typed.InstanceId → Option Typed.Method} : (F.signatures method?).Proper where
  globals _ _ found := (known.globals.lookup found).proper
  constants _ _ found := (known.constants.lookup found).proper
  vars c _ _ found := ((KnownLayouts.vars known.layouts c).lookup found).proper
  objects c := (known.objectTy (c := c) trivial).proper

/-- Slots that take their types from known tables alone have proper types. -/
theorem Tables.Known.slots (known : F.Known cx .all) (f : FrameSlots) :
    Context.Proper ⟨f.untyped.typedSlots F, []⟩ := by
  intro s t typed
  obtain ⟨slot, found, typed⟩ := Option.bind_eq_some_iff.1 typed
  have sorted : f.untyped.OfSort (Ty.Known .all) := by
    intro e member t own
    obtain ⟨old, -, rfl⟩ := List.mem_map.1 member
    cases own
  have types := sorted.typedSlots known.ofSort
  exact (types t (List.mem_filterMap.2 ⟨slot, List.mem_of_getElem? found, typed⟩)).proper

end Types

section Programs

variable {cx : Setting} {fuel : Nat} {statements : List Expr} {body : Elaborated} {s : PassState}

/-- The pass that ends with the tables it starts from makes a safe program, if these know only
variables of the text and no object poses as another value. -/
theorem madeProgram_safe (consistent : cx.definitions.Consistent) (known : s.Known cx .all)
    (sourced : s.tables.Known cx .sourced) (sound : s.errors = [])
    (run : elaborateBody (elaborateExpr cx fuel) mainPlace statements (enteredMain s.tables) =
      some (body, s))
    (ordinary : (madeProgram cx body s).makesValueObject = false) :
    (madeProgram cx body s).Safe (s.tables.signatures (madeProgram cx body s).method?) where
  signatures := known.tables.signatures
  method? := rfl
  inScope := madeProgram_scoped consistent run
  methods m member := by
    obtain ⟨typed, f, checked⟩ := madeProgram_checked consistent known sound run m member
    obtain ⟨g, root, laid⟩ := madeProgram_laid consistent known.tables run m member
    have closed : Closed s.tables.layouts (Ty.Known .all) cx := known_closed known.tables.layouts
    have ⟨sorted, main⟩ := pass_ofSort (KnownLayouts.reduced known.tables.layouts) closed rfl
      known.tables.ofSort run rfl
    have ⟨types, inside⟩ := madeProgram_ofSort closed sorted main m member
    have untyped (s' : SlotId) (hidden : Context.Hidden ⟨f.untyped.typedSlots s.tables, []⟩ s') :
        Context.slotTy? ⟨f.untyped.typedSlots s.tables, []⟩ s' = none :=
      hidden_untyped sourced checked.named hidden
    have self : Context.Hidden ⟨f.untyped.typedSlots s.tables, []⟩ m.selfSlot :=
      (checked.self.mono (f.untyped_labels ▸ List.prefix_refl _)).hidden s.tables
    refine ⟨fun t mentioned => (types t mentioned).proper, typed.result, typed.returns,
      f.untyped.typedSlots s.tables, known.tables.slots f, ?_, untyped _ self, fun x parameter => ?_⟩
    · refine laid.body.safe checked.body (inside.imp fun _ => Ty.Known.proper) (fun d there => ?_)
        untyped (List.forall_mem_singleton.2 ?_)
      · exact Typed.Program.makesValueObject_eq_false.1 ordinary d ⟨m, member, there⟩
      · exact ⟨laid.bound _ List.mem_cons_self, untyped _ self⟩
    · obtain ⟨t, first, second⟩ := checked.parameters x parameter
      exact ⟨t, first, checked.locals ▸ second⟩

end Programs

end Inference

namespace Compilation

open Inference

theorem ofText_safe {options : Options} {text : String} {ds ds' : Diagnostics} {c : Compilation}
    (compiled : ofText options text ds = (.ok c, ds'))
    (ordinary : c.program.makesValueObject = false) : ∃ σ, c.program.Safe σ := by
  obtain ⟨modules, ds₁, read, compiled⟩ := ofText_steps compiled
  obtain ⟨definitions, collected, -, -, body, s, run, made, known, sound, last⟩ :=
    ofBodies_last compiled
  have written : ∀ e ∈ (modules.map (·.body)).flatten, e.Sourced := by
    intro e member
    obtain ⟨statements, listed, member⟩ := List.mem_flatten.1 member
    obtain ⟨m, there, rfl⟩ := List.mem_map.1 listed
    exact Compile.readWithPrelude_sourced read m there e member
  have sourced := lastTables?_sourced collected written last
  rw [made] at ordinary ⊢
  exact ⟨_, madeProgram_safe (Definitions.ofBodies_consistent collected) known sourced sound run
    ordinary⟩

/-- The run is the same with and without watching. Up to its first slip every expression has a type, of
which its value is. If there is no slip, the run ends with a value of the type of the program, or with a
fault other than operands or arms that do not fit. -/
structure RunsFaithfully (c : Compilation) (fuel : Nat) : Prop where
  plain : c.program.run fuel = ((c.program.watchFrom fuel Machine.empty).1,
    (c.program.watchFrom fuel Machine.empty).2.machine)
  faithful : ∀ later ev earlier,
    (c.program.watchFrom fuel Machine.empty).2.events = later ++ ev :: earlier →
      Unslipped (ev :: earlier) → ev.Faithful
  ends : Unslipped (c.program.watchFrom fuel Machine.empty).2.events →
    match (c.program.run fuel).1 with
    | .value v => ∃ t, c.resultTy? = some t ∧ v.isOf t
    | .fault f => f.Legal
    | .outOfFuel => True

/-- A compiled program that makes no objects of the classes of other values runs faithfully: a value
can differ from the type of its expression only once a variable has been read that had not been set,
with a type that has no nil. -/
theorem compiled_runs_faithful {options : Options} {text : String} {ds ds' : Diagnostics}
    {c : Compilation} (compiled : ofText options text ds = (.ok c, ds'))
    (ordinary : c.program.makesValueObject = false) (fuel : Nat) : c.RunsFaithfully fuel := by
  obtain ⟨σ, safe⟩ := ofText_safe compiled ordinary
  have main : c.program.main.selfType = Ty.main ∧ c.program.main.parameters = [] := by
    obtain ⟨modules, -, -, compiled⟩ := ofText_steps compiled
    obtain ⟨definitions, -, -, -, body, s, -, made, -⟩ := ofBodies_last compiled
    rw [made]
    exact ⟨rfl, rfl⟩
  rcases watched : c.program.watchFrom fuel Machine.empty with ⟨answer, w⟩
  obtain ⟨faithful, ends⟩ := Typed.watchFrom_faithful safe main.1 main.2 fuel watched
  have plain : c.program.run fuel = (answer, w.machine) := by
    rw [Typed.Program.run, Typed.Program.watchFrom_plain, watched]
  constructor
  · rw [plain, watched]
  · intro later ev earlier events unslipped
    rw [watched] at events
    dsimp only at events
    rw [events] at faithful
    exact faithful.event unslipped
  · intro unslipped
    rw [watched] at unslipped
    have last := ends unslipped
    rw [plain]
    cases answer <;> exact last

/-- A union of objects that hold numbers of two types, from a method that returns early and one that
yields. -/
def boxingText : String :=
  "class Box\n  def initialize(x)\n    @x = x\n  end\n  def get\n    @x\n  end\nend\n" ++
    "def pick(n)\n  return Box.new(2.5) if n > 1\n  yield n\nend\n" ++
    "b = pick(1) { |k| Box.new(k) }\nb.get + 1\n"

theorem boxingText_runs_faithful : ∃ c ds,
    ofText ⟨false, Limits.standard⟩ boxingText Diagnostics.empty = (.ok c, ds) ∧
      c.program.makesValueObject = false ∧
      (match (c.program.run 60).1 with
        | .value (.int n) => n == 2
        | _ => false) = true ∧
      ∀ fuel, c.RunsFaithfully fuel := by
  obtain ⟨c, ds, result, runs⟩ := exists_compiled ⟨false, Limits.standard⟩ boxingText (fun c =>
      !c.program.makesValueObject && match (c.program.run 60).1 with
        | .value (.int n) => n == 2
        | _ => false) (by decide +kernel)
  obtain ⟨some, value⟩ := Bool.and_eq_true_iff.1 runs
  have ordinary : c.program.makesValueObject = false := by simpa using some
  exact ⟨c, ds, result, ordinary, value, compiled_runs_faithful result ordinary⟩

/-- The global has been assigned a number nowhere before it is read as one. -/
example : (ofText ⟨false, Limits.standard⟩ "if false\n  $g = 1\nend\n$g\n"
    Diagnostics.empty).1.toOption.any (fun c => c.resultTy?.any (· == Ty.int) &&
      match (c.program.run 60).1 with
        | .value .nil => true
        | _ => false) = true := by decide +kernel

end Compilation

end TypedBlocks

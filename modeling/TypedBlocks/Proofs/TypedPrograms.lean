import TypedBlocks.Proofs.CompiledExits
import TypedBlocks.Proofs.TypedElaboration

/-!
# Types of compiled programs

The annotations of a compiled program are a real fixed point: with the types that inference has found
for globals and constants, the whole program is well typed.
-/
namespace TypedBlocks

namespace Typed

open Inference (RunTarget)

/-- A node introduces the points of its parts, in their order. -/
theorem Node.parts_points (n : Node) : (listPoints n.parts).Sublist n.points := by
  cases n with
  | inline c =>
    rcases c with ⟨site, frame, name, selfSlot, receiver, parameters, slots, arguments, body, b, r⟩
    simp [parts, operands, landing?, points, ExpandedCall.points]
  | _ => simp [parts, operands, landing?, points, armsPoints_map]

theorem Node.points_sublist {n : Node} {d : Expr} (part : d ∈ n.parts) :
    d.points.Sublist n.points := by
  obtain ⟨before, after, split⟩ := List.append_of_mem part
  have whole := n.parts_points
  rw [split, listPoints_append, listPoints_cons] at whole
  exact ((List.sublist_append_left _ _).trans (List.sublist_append_right _ _)).trans whole

theorem Node.mem_points {n : Node} {d : Expr} {x : Point} (part : d ∈ n.parts)
    (inside : x ∈ d.points) : x ∈ n.points := (Node.points_sublist part).subset inside

/-- Returns end at a part only where their frame is introduced. -/
theorem Node.frame_mem_points {n : Node} {d : Expr} {landed : List RunTarget} {frame : FrameId}
    (landing : n.landing? = some (d, landed)) (ends : .frame frame ∈ landed) :
    .frame frame ∈ n.points := by
  cases n with
  | inline c =>
    rcases c with ⟨site, own, name, selfSlot, receiver, parameters, slots, arguments, body, b, r⟩
    cases landing
    simp_all [Node.points, ExpandedCall.points]
  | «while» id condition body =>
    cases landing
    simp at ends
  | _ => cases landing

/-- A return inside an expression leaves it, unless it goes to a frame that the expression brings
in. -/
theorem Expr.Inside.return_leaves {e f value : Expr} {frame : FrameId} {t : Ty}
    (inside : e.Inside f) (node : e.node = .return frame value) (carried : value.ty = some t)
    (outer : Point.frame frame ∉ f.node.points) : f.Leaves (.frame frame) t := by
  induction inside with
  | self e =>
    rcases e with ⟨ty, n⟩
    cases node
    exact .return carried
  | @part d e f direct inside ih =>
    have leaves : d.Leaves (.frame frame) t := by
      refine ih node fun there => outer (Node.mem_points direct ?_)
      rcases d with ⟨ty, n⟩
      exact there
    rcases List.mem_append.1 direct with operand | landing
    · exact .operand operand leaves
    · obtain ⟨⟨d', landed⟩, found, rfl⟩ := List.mem_map.1 landing
      have landing := Option.mem_toList.1 found
      exact .landing landing (fun own => outer (Node.frame_mem_points landing own)) leaves

/-- The rules hold at every place inside a well-typed expression. -/
theorem Expr.WellTyped.inside {σ : Signatures} {e f : Expr} (inside : e.Inside f) {Γ : Context}
    (typed : f.WellTyped σ Γ) : ∃ Γ', e.WellTyped σ Γ' := by
  induction inside generalizing Γ with
  | self e => exact ⟨Γ, typed⟩
  | part direct inside ih =>
    cases typed with
    | intro rule parts =>
      obtain ⟨Γ', checked⟩ := Node.mem_partsIn direct Γ
      exact ih (parts _ checked)

section Programs

variable {p : Program} {m : Method}

/-- The methods of a program and its top level. -/
def Program.allMethods (p : Program) : List Method := p.main :: p.methods.toList

/-- The expression stands in a method of the program. -/
def Program.Within (p : Program) (e : Expr) : Prop := ∃ m ∈ p.allMethods, e.Inside m.body

theorem Program.Within.part {d e : Expr} (within : p.Within e)
    (part : d ∈ e.node.parts) : p.Within d := by
  obtain ⟨m, member, inside⟩ := within
  exact ⟨m, member, Expr.Inside.trans (.part part (.self d)) inside⟩

theorem Program.WellTyped.method {globals constants : List (String × Ty)}
    (typed : p.WellTyped globals constants) (member : m ∈ p.allMethods) :
    m.WellTyped (p.signatures globals constants) := by
  rcases List.mem_cons.1 member with rfl | listed
  · exact typed.main
  · exact typed.methods m (Array.mem_toList_iff.1 listed)

/-- Where points are numbered apart, the frame of a method is introduced by nothing in its body. -/
theorem Program.frame_not_mem_points (distinct : p.points.Nodup) (member : m ∈ p.allMethods) :
    Point.frame m.frame ∉ m.body.node.points := by
  have own : m.points.Nodup := by
    rcases List.mem_cons.1 member with rfl | listed
    · exact (List.nodup_append.1 distinct).1
    · exact (List.pairwise_flatMap.1 (List.nodup_append.1 distinct).2.1).1 m listed
  rcases m with ⟨_, _, _, _, _, _, _, ⟨ty, node⟩, _, _⟩
  exact (List.nodup_cons.1 own).1

end Programs

end Typed

namespace Inference

open Typed (InstanceId SlotId Slot Context)
open Pass

variable {cx : Setting} {fuel : Nat} {statements : List Expr} {body : Elaborated} {s : PassState}

theorem enteredMain_fixed (known : s.Known cx .all) : (enteredMain s.tables).Fixed cx s.tables :=
  ⟨enteredMain_known known.tables, rfl, nofun⟩

/-- The pass that ends with the tables it starts from makes a program of checked methods. -/
theorem madeProgram_checked (consistent : cx.definitions.Consistent) (known : s.Known cx .all)
    (sound : s.errors = [])
    (run : elaborateBody (elaborateExpr cx fuel) mainPlace statements (enteredMain s.tables) =
      some (body, s)) : ∀ m ∈ (madeProgram cx body s).allMethods,
      m.WellTyped (s.tables.signatures (madeProgram cx body s).method?) ∧
        ∃ f, FrameChecked s.tables (s.tables.signatures (madeProgram cx body s).method?) f m := by
  have fixed := enteredMain_fixed known
  obtain ⟨checks, knownBody⟩ := elaborateBody_checks (elaborateExpr_checking s.tables consistent fuel)
    mainPlace_known fixed ⟨.refl _, sound⟩ run
  have numbered : (enteredMain s.tables).frame.Numbered := FrameSlots.Numbered.empty.selfBound _ _
  obtain ⟨placed, -⟩ := elaborateBody_placed (elaborateExpr_placing consistent fuel) numbered run
  have there {i : Nat} {m : Typed.Method} (found : s.methods[i]? = some (some m)) :
      (madeProgram cx body s).method? ⟨i⟩ = some m := madeProgram_method? placed.completes found
  have knows : KnowsMethods s.tables (madeProgram cx body s).method? s.instances := by
    intro key id member
    rcases checks.finishes.present key id member with earlier | ⟨m, found, realizes⟩
    · simp [enteredMain, PassState.start] at earlier
    · exact ⟨m, there found, realizes⟩
  refine List.forall_mem_cons.2 ⟨?_, fun m member => ?_⟩
  · have main : ScopeVar.Known cx .all ⟨[.main], "self"⟩ :=
      (mainPlace_known (V := .all)).activation.path.mono (Nat.zero_le _)
    have hides := selfBound_hides (t := Ty.main) FrameSlots.Keyed.empty main
    have types := knownBody.ends.methodResult (fun _ _ => Ty.Known.join) ⟨0⟩
    exact checks.method knownBody knows rfl hides rfl rfl rfl types
      (.refl fun t inside => (types t inside).proper) (List.forall_mem_nil _)
  · obtain ⟨i, typed⟩ := madeProgram_methods checks.finishes m (Array.mem_toList_iff.1 member)
    exact typed _ knows

theorem madeProgram_typed (consistent : cx.definitions.Consistent) (known : s.Known cx .all)
    (sound : s.errors = [])
    (run : elaborateBody (elaborateExpr cx fuel) mainPlace statements (enteredMain s.tables) =
      some (body, s)) :
    (madeProgram cx body s).WellTyped s.tables.globals s.tables.constants := by
  have signatures : (madeProgram cx body s).signatures s.tables.globals s.tables.constants =
      s.tables.signatures (madeProgram cx body s).method? :=
    madeProgram_signatures known.tables.layouts.nodup
  have each := madeProgram_checked consistent known sound run
  constructor
  · rw [signatures]
    exact (each _ List.mem_cons_self).1
  · rw [signatures]
    exact fun m member => (each m (List.mem_cons_of_mem _ (Array.mem_toList_iff.2 member))).1

end Inference

namespace Compilation

theorem ofBodies_typed {limits : Inference.Limits} {bodies : List (List Expr)} {c : Compilation}
    (compiled : ofBodies limits bodies = .ok c) :
    ∃ globals constants, c.program.WellTyped globals constants := by
  obtain ⟨definitions, collected, -, -, body, s, run, made, known, sound, -⟩ :=
    ofBodies_last compiled
  rw [made]
  exact ⟨_, _, Inference.madeProgram_typed (Definitions.ofBodies_consistent collected) known sound
    run⟩

/-- A compiled program checks against one type for each global and each constant and the layouts that
it lists: all typing rules hold everywhere in its methods and its top level, and the type of a
method covers its body and the value of every return from it, however deep the return stands. -/
theorem compiled_program_typed {options : Options} {text : String} {ds ds' : Diagnostics}
    {c : Compilation} (compiled : ofText options text ds = (.ok c, ds')) :
    ∃ globals constants, c.program.WellTyped globals constants ∧
      ∀ m ∈ c.program.allMethods, ∀ e value, Typed.Expr.Inside e m.body →
        e.node = .return m.frame value →
          ∃ t u, value.ty = some t ∧ m.returnType = some u ∧ t ≤ u := by
  obtain ⟨modules, -, -, compiled⟩ := ofText_steps compiled
  obtain ⟨globals, constants, typed⟩ := ofBodies_typed compiled
  refine ⟨globals, constants, typed, fun m member e value inside node => ?_⟩
  have typed := typed.method member
  have apart := Typed.Program.frame_not_mem_points (ofBodies_exits compiled).1 member
  obtain ⟨Γ, ⟨rule, -⟩⟩ := typed.body.inside inside
  rcases e with ⟨ty, node'⟩
  cases node
  obtain ⟨t, carried⟩ := Option.isSome_iff_exists.1 rule.1
  obtain ⟨u, result, below⟩ := typed.returns t (inside.return_leaves rfl carried apart)
  exact ⟨t, u, carried, result, below⟩

/-- An object with a variable, a method that runs its block and returns from inside, and a union of
two types that a call chooses among. -/
def returningText : String :=
  "class Box\n  def initialize(x)\n    @x = x\n  end\n  def get\n    return @x\n  end\nend\n" ++
    "def each\n  yield 1\n  return 2.5\nend\n$b = Box.new(each do |n| break n if n > 3 end)\n$b.get + 1\n"

theorem returningText_typed : ∃ c ds,
    ofText ⟨false, Inference.Limits.standard⟩ returningText Diagnostics.empty = (.ok c, ds) ∧
      ∃ globals constants, c.program.WellTyped globals constants ∧
        ∀ m ∈ c.program.allMethods, ∀ e value, Typed.Expr.Inside e m.body →
          e.node = .return m.frame value →
            ∃ t u, value.ty = some t ∧ m.returnType = some u ∧ t ≤ u := by
  obtain ⟨c, ds, result⟩ := exists_compilation ⟨false, Inference.Limits.standard⟩ returningText (by decide +kernel)
  exact ⟨c, ds, result, compiled_program_typed result⟩

end Compilation

end TypedBlocks

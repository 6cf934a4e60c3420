import TypedBlocks.Proofs.ExitTypes
import TypedBlocks.Proofs.FrameSlots
import TypedBlocks.Proofs.MadeCode
import TypedBlocks.Proofs.PlainReceivers
import TypedBlocks.Proofs.SentValues

/-!
# Traced exits

Completions run through elaboration beside the code that they belong to. Each construct passes on the
values that leave its parts, in the order of the code, and takes away those that end at itself. So what
completions hold for a target is merged from the types of the values that the code sends there, and
nothing else.
-/
namespace TypedBlocks.Inference

open Typed (InstanceId SlotId pointOf)
open Pass

/-- All nodes in the body of the method are exact. -/
def AnnotatedMethod (m : Typed.Method) : Prop := m.body.Annotated

/-- For each target the ends hold what the code sends there, if it is not numbered in the code itself,
and all nodes of the code are exact. -/
structure Traces (codes : List Typed.Expr) (ends : Completions) : Prop where
  keyed : ends.Keyed
  sent : ∀ target, pointOf target ∉ Typed.listPoints codes →
    Ty.Merges (ends.exitTy? target) (codes.flatMap (Typed.Expr.sent target))
  annotated : ∀ c ∈ codes, c.Annotated

namespace Traces

variable {codes ds : List Typed.Expr} {code : Typed.Expr} {ends ends' : Completions}

theorem nil (keyed : ends.Keyed) (silent : ∀ target, ends.exitTy? target = none) :
    Traces [] ends where
  keyed := keyed
  sent target _ := (silent target).symm ▸ .none
  annotated := nofun

theorem never : Traces [] Completions.never := nil .never fun _ => Completions.exitTy?_never

theorem ofNormal (t : Ty) : Traces [] (.ofNormal t) := nil (.ofNormal t) fun _ =>
  Completions.exitTy?_ofNormal

/-- A call ends with its result, if it has any. -/
theorem ofResult (result : Option Ty) : Traces []
    (match result with
      | some t => .ofNormal t
      | none => Completions.never) := by
  cases result with
  | none => exact never
  | some t => exact ofNormal t

theorem alone (traces : Traces [code] ends) (target : RunTarget)
    (outer : pointOf target ∉ code.points) :
    Ty.Merges (ends.exitTy? target) (code.sent target) := by
  simpa using traces.sent target (by simpa using outer)

/-- Code follows code that runs before it or beside it. -/
theorem join (first : Traces codes ends) (second : Traces ds ends') :
    Traces (codes ++ ds) (ends.join ends') where
  keyed := first.keyed.join ends'
  sent target outer := by
    rw [Typed.listPoints_append, List.mem_append, not_or] at outer
    rw [Completions.exitTy?_join second.keyed, List.flatMap_append]
    exact .both (first.sent target outer.1) (second.sent target outer.2)
  annotated c member := by
    rcases List.mem_append.1 member with earlier | later
    · exact first.annotated c earlier
    · exact second.annotated c later

theorem withEnds (traces : Traces codes ends) (keyed : ends'.Keyed)
    (same : ∀ target, ends'.exitTy? target = ends.exitTy? target) : Traces codes ends' :=
  { traces with
    keyed
    sent := fun target outer => (same target).symm ▸ traces.sent target outer }

theorem dropNormal (traces : Traces codes ends) : Traces codes ends.dropNormal :=
  traces.withEnds traces.keyed.dropNormal fun _ => Completions.exitTy?_dropNormal

theorem andThen (first : Traces codes ends) (second : Traces ds ends')
    (falls : ends.fallsThrough = true) : Traces (codes ++ ds) (ends.andThen ends') := by
  rw [Completions.andThen, if_pos falls]
  exact first.dropNormal.join second

/-- Code is put together from the code at hand, and takes away what ends at itself. -/
theorem landing (traces : Traces codes ends) (parts : code.node.parts = codes)
    (stays : code.node.exit? = none) (exact : code.Exact) (keyed : ends'.Keyed)
    (same : ∀ target, pointOf target ∉ code.points → ends'.exitTy? target = ends.exitTy? target) :
    Traces [code] ends' where
  keyed := keyed
  sent target outer := by
    have outer : pointOf target ∉ code.points := by simpa using outer
    rw [List.flatMap_singleton, Typed.Expr.sent_of_parts stays, parts, same target outer]
    refine traces.sent target fun inside => outer ?_
    obtain ⟨c, member, there⟩ := Typed.mem_listPoints.1 inside
    exact Typed.Expr.points_of_part (parts ▸ member) there
  annotated := List.forall_mem_cons.2 ⟨.intro exact (parts ▸ traces.annotated), nofun⟩

theorem node (traces : Traces codes ends) (parts : code.node.parts = codes)
    (stays : code.node.exit? = none) (exact : code.Exact) : Traces [code] ends :=
  traces.landing parts stays exact traces.keyed fun _ _ => rfl

theorem leaf (leaf : code.IsLeaf) (t : Ty) : Traces [code] (.ofNormal t) where
  keyed := .ofNormal t
  sent target _ := by
    rw [List.flatMap_singleton, leaf.sent, Completions.exitTy?_ofNormal]
    exact .none
  annotated := List.forall_mem_cons.2 ⟨leaf.annotated, nofun⟩

/-- Code that neither has parts nor sends anything adds nothing. -/
theorem besides {c : Typed.Expr} (leaf : c.IsLeaf) (traces : Traces codes ends) :
    Traces (c :: codes) ends where
  keyed := traces.keyed
  sent target outer := by
    rw [Typed.listPoints_cons, leaf.points, List.nil_append] at outer
    rw [List.flatMap_cons, leaf.sent, List.nil_append]
    exact traces.sent target outer
  annotated := List.forall_mem_cons.2 ⟨leaf.annotated, traces.annotated⟩

/-- A single part stands for the whole, if it has the same type. -/
theorem ofParts (traces : Traces codes ends) {ty : Option Ty}
    (single : ∀ c, codes = [c] → c.ty = ty) : Traces [Typed.Expr.ofParts codes ty] ends := by
  unfold Typed.Expr.ofParts
  split
  · rename_i only
    rcases only with ⟨ty', node⟩
    cases single _ rfl
    exact traces
  · refine traces.node ?_ rfl trivial
    simp [Typed.Node.parts, Typed.Node.operands, Typed.Node.landing?]

/-- An exit sends its value away. -/
theorem exit {target : RunTarget} {value : Typed.Expr} {t : Ty} {x : Completion}
    {node : Typed.Node} (traces : Traces [value] ends) (parts : node.parts = [value])
    (leaves : node.exit? = some (target, value)) (carried : value.ty = some t)
    (kind : x.exit? = some (target, t))
    (exact : Typed.Expr.Exact ⟨(ends.dropNormal.add x).normal, node⟩) :
    Traces [⟨(ends.dropNormal.add x).normal, node⟩] (ends.dropNormal.add x) where
  keyed := traces.keyed.dropNormal.add x
  sent target' outer := by
    have inner : pointOf target' ∉ Typed.listPoints [value] := by
      intro inside
      obtain ⟨c, member, there⟩ := Typed.mem_listPoints.1 inside
      exact outer (by simpa [Typed.Expr.points_node] using Typed.Node.mem_points (parts ▸ member) there)
    have earlier := traces.sent target' inner
    rw [List.flatMap_singleton, Typed.Expr.sent_eq, parts, Typed.Expr.sends?, leaves]
    by_cases same : target = target'
    · subst same
      simp only [carried, if_true, Completions.exitTy?_add kind, Completions.exitTy?_dropNormal]
      exact earlier.both (.one t)
    · have other (t' : Ty) : x.exit? ≠ some (target', t') := by
        intro there
        rw [kind] at there
        cases there
        exact same rfl
      simp only [if_neg same, Option.toList_none, List.append_nil,
        Completions.exitTy?_add_ne other, Completions.exitTy?_dropNormal]
      exact earlier
  annotated := List.forall_mem_cons.2 ⟨.intro exact (parts ▸ traces.annotated), nofun⟩

end Traces

section Calls

variable {operands kept made : List Typed.Expr} {l : Elaborated} {ends : Completions}

/-- Code of a call of operands, with the ends that the call adds to those of the operands. -/
structure Calls (operands : List Typed.Expr) (l : Elaborated) : Prop where
  keyed : l.ends.Keyed
  points : ∀ x ∈ Typed.listPoints operands, x ∈ l.code.points
  sent : ∀ target, pointOf target ∉ l.code.points → ∃ ts,
    l.code.sent target = operands.flatMap (Typed.Expr.sent target) ++ ts ∧
      Ty.Merges (l.ends.exitTy? target) ts
  annotated : (∀ c ∈ operands, c.Annotated) → l.code.Annotated

/-- Operands as the code of a call has them: one that neither has parts nor sends anything may be
missing, or replaced. -/
inductive Stands : List Typed.Expr → List Typed.Expr → Prop
  | all (operands : List Typed.Expr) : Stands operands operands
  | rest {c : Typed.Expr} (leaf : c.IsLeaf) (cs : List Typed.Expr) : Stands cs (c :: cs)
  | other {c d : Typed.Expr} (old : c.IsLeaf) (new : d.IsLeaf) (cs : List Typed.Expr) :
    Stands (d :: cs) (c :: cs)

namespace Stands

variable (stands : Stands kept operands)

include stands

theorem sent (target : RunTarget) : kept.flatMap (Typed.Expr.sent target) =
    operands.flatMap (Typed.Expr.sent target) := by
  cases stands with
  | all => rfl
  | rest leaf => rw [List.flatMap_cons, leaf.sent, List.nil_append]
  | other old new => rw [List.flatMap_cons, List.flatMap_cons, old.sent, new.sent]

theorem points : Typed.listPoints kept = Typed.listPoints operands := by
  cases stands with
  | all => rfl
  | rest leaf => rw [Typed.listPoints_cons, leaf.points, List.nil_append]
  | other old new => rw [Typed.listPoints_cons, Typed.listPoints_cons, old.points, new.points]

theorem annotated (each : ∀ c ∈ operands, c.Annotated) : ∀ c ∈ kept, c.Annotated := by
  cases stands with
  | all => exact each
  | rest leaf => exact fun c member => each c (List.mem_cons_of_mem _ member)
  | other old new =>
    exact List.forall_mem_cons.2 ⟨new.annotated, fun c member => each c (List.mem_cons_of_mem _ member)⟩

end Stands

/-- A node over operands and further code, which takes away what ends at itself. -/
theorem Calls.node (traces : Traces made ends) (parts : l.code.node.parts = kept ++ made)
    (stays : l.code.node.exit? = none) (exact : l.code.Exact) (stands : Stands kept operands)
    (keyed : l.ends.Keyed) (same : ∀ target, pointOf target ∉ l.code.points →
      l.ends.exitTy? target = ends.exitTy? target) : Calls operands l where
  keyed := keyed
  points x inside := by
    rw [← stands.points] at inside
    obtain ⟨c, member, there⟩ := Typed.mem_listPoints.1 inside
    exact Typed.Expr.points_of_part (parts ▸ List.mem_append_left made member) there
  sent target outer := by
    refine ⟨made.flatMap (Typed.Expr.sent target), ?_, ?_⟩
    · rw [← stands.sent, ← List.flatMap_append, ← parts]
      exact Typed.Expr.sent_of_parts stays
    · rw [same target outer]
      refine traces.sent target fun inside => outer ?_
      obtain ⟨c, member, there⟩ := Typed.mem_listPoints.1 inside
      exact Typed.Expr.points_of_part (parts ▸ List.mem_append_right kept member) there
  annotated each := .intro exact fun d direct => by
    rw [parts, List.mem_append] at direct
    exact direct.elim (stands.annotated each d) (traces.annotated d)

/-- A call behind its operands. -/
theorem Calls.onto (calls : Calls operands l) (traces : Traces operands ends)
    (falls : ends.fallsThrough = true) : Traces [l.code] (ends.andThen l.ends) where
  keyed := traces.keyed.andThen l.ends
  sent target outer := by
    have outer : pointOf target ∉ l.code.points := by simpa using outer
    obtain ⟨ts, whole, merges⟩ := calls.sent target outer
    rw [List.flatMap_singleton, whole, Completions.exitTy?_andThen calls.keyed falls]
    exact (traces.sent target fun inside => outer (calls.points _ inside)).both merges
  annotated := List.forall_mem_cons.2 ⟨calls.annotated traces.annotated, nofun⟩

/-- A call of operands that neither have parts nor send anything. -/
theorem Calls.alone (calls : Calls operands l) (leaves : ∀ c ∈ operands, c.IsLeaf) :
    Traces [l.code] l.ends where
  keyed := calls.keyed
  sent target outer := by
    have silent : operands.flatMap (Typed.Expr.sent target) = [] :=
      List.flatMap_eq_nil_iff.2 fun c member => (leaves c member).sent target
    obtain ⟨ts, whole, merges⟩ := calls.sent target (by simpa using outer)
    rw [List.flatMap_singleton, whole, silent]
    exact merges
  annotated :=
    List.forall_mem_cons.2 ⟨calls.annotated fun c member => (leaves c member).annotated, nofun⟩

end Calls

/-- An elaboration whose code sends just what its ends hold. -/
structure Elaborate.Tracing (elaborate : Elaborate) : Prop where
  growing : elaborate.Growing
  typed : ∀ here e, (elaborate here e).Typed
  constants : ∀ here e s l s', e.isConstant = true → elaborate here e s = some (l, s') →
    l.code.IsLeaf
  truths : ∀ here e s l s', elaborate here e s = some (l, s') → l.ends.normal.isSome →
    l.code.isTrue = e.alwaysTrue
  traces : ∀ here e s l s', elaborate here e s = some (l, s') → s'.errors = [] →
    s.Advances AnnotatedMethod s' ∧ Traces [l.code] l.ends

section Constructs

variable {cx : Setting} {elaborate : Elaborate} {here : Place} {s s' : PassState} {l : Elaborated}
  (tracing : elaborate.Tracing) (sound : s'.errors = [])

include tracing sound

section Sequences

theorem elaborateParts_traces {before ends : Completions} {es : List Expr}
    {earlier codes : List Typed.Expr} (falls : before.fallsThrough = true)
    (traces : Traces earlier before)
    (h : elaborateParts elaborate here before es s = some ((codes, ends), s')) :
    s.Advances AnnotatedMethod s' ∧ Traces (earlier ++ codes) ends ∧
      ∀ c, codes = [c] → c.ty = ends.normal := by
  induction es generalizing before earlier codes s with
  | nil =>
    obtain ⟨rfl, rfl, rfl⟩ := elaborateParts_nil_steps h
    exact ⟨.refl _, by simpa using traces, nofun⟩
  | cons e es ih =>
    obtain ⟨first, s₁, run, rest⟩ := elaborateParts_cons_steps h
    have firstTy : first.code.ty = (before.andThen first.ends).normal :=
      (tracing.typed here e s first s₁ run).trans (Completions.andThen_normal first.ends falls).symm
    rcases rest with ⟨fallsOn, rest, runRest, rfl⟩ | ⟨stops, rfl, rfl, rfl⟩
    · have grows := elaborateParts_grows tracing.growing runRest
      obtain ⟨advances, own⟩ := tracing.traces here e s first s₁ run (grows.no_errors sound)
      obtain ⟨advancesRest, whole, -⟩ := ih fallsOn (traces.andThen own falls) runRest
      refine ⟨advances.trans advancesRest, by simpa using whole, fun c only => ?_⟩
      obtain ⟨rfl, rfl⟩ := List.cons.inj only
      cases es with
      | nil =>
        obtain ⟨-, rfl, -⟩ := elaborateParts_nil_steps runRest
        exact firstTy
      | cons d es =>
        obtain ⟨_, _, -, ⟨-, _, -, impossible⟩ | ⟨-, impossible, -⟩⟩ :=
          elaborateParts_cons_steps runRest <;> cases impossible
    · obtain ⟨advances, own⟩ := tracing.traces here e s first s' run sound
      refine ⟨advances, traces.andThen own falls, fun c only => ?_⟩
      cases only
      exact firstTy

/-- Operands, with nothing before them. -/
theorem operands_traces {ends : Completions} {es : List Expr} {codes : List Typed.Expr}
    (h : elaborateParts elaborate here (Completions.ofNormal Ty.nil) es s =
      some ((codes, ends), s')) :
    s.Advances AnnotatedMethod s' ∧ Traces codes ends ∧ ∀ c, codes = [c] → c.ty = ends.normal :=
  elaborateParts_traces tracing sound rfl (.ofNormal Ty.nil) h

theorem elaborateBody_traces {body : List Expr}
    (h : elaborateBody elaborate here body s = some (l, s')) :
    s.Advances AnnotatedMethod s' ∧ Traces [l.code] l.ends := by
  rcases elaborateBody_steps h with ⟨-, rfl, rfl⟩ | ⟨-, parts, ends, run, rfl⟩
  · exact ⟨.refl _, .leaf ⟨rfl, rfl⟩ Ty.nil⟩
  · obtain ⟨advances, traces, single⟩ := operands_traces tracing sound run
    exact ⟨advances, traces.ofParts single⟩

/-- Operands that stop early stand for the whole. -/
theorem stopped_traces {es : List Expr} {codes : List Typed.Expr} {ends : Completions}
    (h : elaborateParts elaborate here (Completions.ofNormal Ty.nil) es s = some ((codes, ends), s'))
    (stops : ends.fallsThrough = false) :
    s.Advances AnnotatedMethod s' ∧ Traces [Typed.Expr.ofParts codes none] ends := by
  obtain ⟨advances, traces, single⟩ := operands_traces tracing sound h
  have none : ends.normal = none := by simpa [Completions.fallsThrough] using stops
  exact ⟨advances, traces.ofParts (none ▸ single)⟩

end Sequences

section Leaves

omit tracing in
theorem elaborateRead_traces {span : Span} {v : Variable}
    (h : elaborateRead cx here span v s = some (l, s')) :
    s.Advances AnnotatedMethod s' ∧ Traces [l.code] l.ends := by
  rcases elaborateRead_steps h with ⟨-, rfl, rfl⟩ | ⟨e, -, -, failed⟩ | ⟨-, c, -, rfl, rfl⟩ |
    ⟨-, rfl, rfl⟩ | ⟨-, -, rfl, rfl⟩ | ⟨-, rfl, rfl⟩
  · exact ⟨.of_step (readLocal_grows _ _) rfl rfl, .leaf ⟨rfl, rfl⟩ _⟩
  · exact (no_failure sound failed).elim
  all_goals exact ⟨.refl _, .leaf ⟨rfl, rfl⟩ _⟩

theorem elaborateAssignment_traces {span : Span} {v : Variable} {value : Expr}
    (h : elaborateAssignment cx elaborate here span v value s = some (l, s')) :
    s.Advances AnnotatedMethod s' ∧ Traces [l.code] l.ends := by
  obtain ⟨first, s₁, run, ⟨-, rfl, rfl⟩ | ⟨t, normal, rest⟩⟩ := elaborateAssignment_steps h
  · exact tracing.traces _ _ _ _ _ run sound
  · rcases rest with ⟨-, rfl, rfl⟩ | ⟨-, -, -, failed⟩ | ⟨-, c, -, rfl, rfl⟩ | ⟨-, rfl, rfl⟩ |
      ⟨-, rfl, rfl⟩
    · obtain ⟨advances, traces⟩ := tracing.traces _ _ _ _ _ run sound
      exact ⟨advances.trans (.of_step (assignLocal_grows _ _ _) rfl rfl), traces.node rfl rfl trivial⟩
    · exact (no_failure sound failed).elim
    · obtain ⟨advances, traces⟩ := tracing.traces _ _ _ _ _ run sound
      exact ⟨advances.trans (.of_step (grows_tables _ (.extendLayout _ _ _ _)) rfl rfl),
        traces.node rfl rfl trivial⟩
    · obtain ⟨advances, traces⟩ := tracing.traces _ _ _ _ _ run sound
      exact ⟨advances.trans (.of_step (grows_tables _ (.extendGlobal _ _ _)) rfl rfl),
        traces.node rfl rfl trivial⟩
    · obtain ⟨advances, traces⟩ := tracing.traces _ _ _ _ _ run sound
      exact ⟨advances.trans (.of_step (grows_tables _ (.extendConstant _ _ _)) rfl rfl),
        traces.node rfl rfl trivial⟩

end Leaves

section Control

theorem elaborateExit_traces {id : NodeId} {span : Span} {keyword : String} {value : Option Expr}
    (h : elaborateExit cx elaborate here id span keyword value s = some (l, s')) :
    s.Advances AnnotatedMethod s' ∧ Traces [l.code] l.ends := by
  obtain ⟨first, s₁, run, rest⟩ := elaborateExit_steps h
  have value (sound : s₁.errors = []) :
      (s.Advances AnnotatedMethod s₁ ∧ Traces [first.code] first.ends) ∧ first.code.ty = first.ends.normal := by
    cases value with
    | none =>
      obtain ⟨rfl, rfl⟩ := pure_eq_some.1 run
      exact ⟨⟨.refl _, .leaf ⟨rfl, rfl⟩ Ty.nil⟩, rfl⟩
    | some d => exact ⟨tracing.traces _ _ _ _ _ run sound, tracing.typed _ _ _ _ _ run⟩
  rcases rest with ⟨-, rfl, rfl⟩ | ⟨t, normal, ⟨f, -, rfl, rfl⟩ | ⟨b, -, rfl, rfl⟩ | ⟨-, -, failed⟩⟩
  · exact (value sound).1
  · obtain ⟨⟨advances, traces⟩, typed⟩ := value sound
    exact ⟨advances, traces.exit rfl rfl (typed.trans normal) rfl trivial⟩
  · obtain ⟨⟨advances, traces⟩, typed⟩ := value sound
    exact ⟨advances, traces.exit rfl rfl (typed.trans normal) rfl trivial⟩
  · exact (no_failure sound failed).elim

theorem elaborateNot_traces {operand : Expr}
    (h : elaborateNot elaborate here operand s = some (l, s')) :
    s.Advances AnnotatedMethod s' ∧ Traces [l.code] l.ends := by
  obtain ⟨first, run, ⟨-, rfl⟩ | ⟨-, rfl⟩⟩ := elaborateNot_steps h
  · exact tracing.traces _ _ _ _ _ run sound
  · obtain ⟨advances, traces⟩ := tracing.traces _ _ _ _ _ run sound
    have whole := traces.withEnds (traces.keyed.dropNormal.add (.normal Ty.bool)) fun target =>
      (Completions.exitTy?_joinNormal _).trans Completions.exitTy?_dropNormal
    exact ⟨advances, whole.node rfl rfl trivial⟩

theorem elaborateConditional_traces {kind : ConditionKind} {condition : Expr}
    {consequent : List Expr} {alternative : Option (List Expr)}
    (h : elaborateConditional elaborate here kind condition consequent alternative s =
      some (l, s')) : s.Advances AnnotatedMethod s' ∧ Traces [l.code] l.ends := by
  obtain ⟨c, s₁, run, ⟨-, rfl, rfl⟩ | ⟨-, first, s₂, second, s₃, runFirst, runSecond, rfl,
    rfl⟩⟩ := elaborateConditional_steps h
  · exact tracing.traces _ _ _ _ _ run sound
  · have sound₃ : s₃.errors = [] := sound
    obtain ⟨advances₃, tracesSecond⟩ := elaborateBody_traces tracing sound₃ runSecond
    have sound₂ : s₂.errors = [] := advances₃.grows.no_errors sound₃
    obtain ⟨advances₂, tracesFirst⟩ := elaborateBody_traces tracing sound₂ runFirst
    obtain ⟨advances₁, traces⟩ :=
      tracing.traces _ _ _ _ _ run (advances₂.grows.no_errors sound₂)
    refine ⟨(((advances₁.trans advances₂).trans (.assigned _ _)).trans advances₃).trans
      (.assigned _ _), ?_⟩
    cases kind with
    | «if» => exact ((traces.dropNormal.join tracesFirst).join tracesSecond).node rfl rfl trivial
    | «unless» => exact ((traces.dropNormal.join tracesSecond).join tracesFirst).node rfl rfl trivial

theorem elaborateWhile_traces {id : NodeId} {condition : Expr} {body : List Expr}
    (h : elaborateWhile elaborate here id condition body s = some (l, s')) :
    s.Advances AnnotatedMethod s' ∧ Traces [l.code] l.ends := by
  obtain ⟨c, s₁, run, ⟨-, rfl, rfl⟩ | ⟨falls, b, s₂, runBody, rfl, rfl⟩⟩ := elaborateWhile_steps h
  · exact tracing.traces _ _ _ _ _ run sound
  · have entered : s₁.Advances AnnotatedMethod { s₁ with nextLoop := s₁.nextLoop + 1 } :=
      .of_step (.of_parts (.refl _) (List.prefix_refl _) rfl rfl (Nat.le_refl _) (Nat.le_refl _)
        (Nat.le_succ _) (List.prefix_refl _)) rfl rfl
    have sound₂ : s₂.errors = [] := sound
    obtain ⟨advances₂, tracesBody⟩ := elaborateBody_traces tracing sound₂ runBody
    have sound₁ := (entered.trans advances₂).grows.no_errors sound₂
    obtain ⟨advances₁, traces⟩ := tracing.traces _ _ _ _ _ run sound₁
    refine ⟨((advances₁.trans entered).trans advances₂).trans (.assigned _ _), ?_⟩
    have truth := tracing.truths _ _ _ _ _ run falls
    have keyed := tracesBody.keyed.throughLoop ⟨s₁.nextLoop⟩ !condition.alwaysTrue
    refine (traces.dropNormal.join tracesBody).landing rfl rfl (fun outer => ?_)
      (traces.keyed.dropNormal.join _) fun target outer => ?_
    · have left := tracesBody.alone (.break (.loop ⟨s₁.nextLoop⟩)) outer
      have ty : (c.ends.dropNormal.join (b.ends.throughLoop ⟨s₁.nextLoop⟩
          !condition.alwaysTrue)).normal = Ty.mergeOption (b.ends.breakTy? (.loop ⟨s₁.nextLoop⟩))
            (if !condition.alwaysTrue then some Ty.nil else none) := by
        rw [Completions.join_normal, Completions.throughLoop_normal]
        exact Completions.mergeOption_none_left _
      rw [Elaborated.ofNode, ty, Typed.loopEnd, truth]
      cases condition.alwaysTrue with
      | true => exact left.both .none
      | false => exact left.both (.one Ty.nil)
    · change (c.ends.dropNormal.join (b.ends.throughLoop ⟨s₁.nextLoop⟩
        !condition.alwaysTrue)).exitTy? target = _
      rw [Completions.exitTy?_join keyed, Completions.exitTy?_join tracesBody.keyed,
        Completions.exitTy?_throughLoop]
      rintro own
      cases List.mem_singleton.1 own
      exact outer List.mem_cons_self

theorem elaborateLogical_traces {connective : Connective} {left right : Expr}
    (h : elaborateLogical elaborate here connective left right s = some (l, s')) :
    s.Advances AnnotatedMethod s' ∧ Traces [l.code] l.ends := by
  obtain ⟨first, s₁, run, ⟨-, rfl, rfl⟩ | ⟨t, second, s₂, -, runRight, rfl, rfl⟩⟩ :=
    elaborateLogical_steps h
  · exact tracing.traces _ _ _ _ _ run sound
  · obtain ⟨advances₂, tracesRight⟩ := tracing.traces _ _ _ _ _ runRight sound
    obtain ⟨advances₁, tracesLeft⟩ :=
      tracing.traces _ _ _ _ _ run (advances₂.grows.no_errors sound)
    refine ⟨(advances₁.trans advances₂).trans (.assigned _ _), ?_⟩
    have both := tracesLeft.dropNormal.join tracesRight
    have whole := both.withEnds (both.keyed.joinNormal (some t)) fun _ =>
      Completions.exitTy?_joinNormal _
    cases connective <;> exact whole.node rfl rfl trivial

end Control

section Methods

/-- A method that a call makes present is annotated exactly. -/
theorem elaborateMethod_advances {depth : Nat} {key : Instantiation} {number : InstanceId}
    {m : MethodEntry} (callee : cx.definitions.method? key.method = some m)
    (h : elaborateMethod cx elaborate depth key s = some (number, s')) : s.Advances AnnotatedMethod s' := by
  rcases elaborateMethod_steps h with ⟨-, rfl⟩ | ⟨-, -, ⟨missing, -⟩ | ⟨m', parameters, s₁, body,
    s₂, -, bound, run, rfl⟩⟩
  · exact .refl _
  · rw [missing] at callee
    cases callee
  · have sound₂ : s₂.errors = [] := sound
    obtain ⟨methods, instances⟩ := bindVars_keeps bound
    obtain ⟨advances, traces⟩ := elaborateBody_traces tracing sound₂ run
    have entered : (enteredMethod key s).Advances AnnotatedMethod s₁ :=
      .of_step (bindVars_grows bound) methods instances
    exact .leftMethod (entered.trans advances) (elaborateMethod_grows tracing.growing h)
      (traces.annotated _ List.mem_cons_self)

/-- Returns of the expanded method and breaks of the block end at the call. -/
theorem expandCall_calls {call : CallSyntax} {m : MethodEntry} {key : Instantiation} {block : Block}
    {receiver : Typed.Expr} {arguments operands : List Typed.Expr}
    (stands : Stands (receiver :: arguments) operands)
    (h : expandCall cx elaborate here call m key block receiver arguments s = some (l, s')) :
    s.Advances AnnotatedMethod s' ∧ Calls operands l := by
  rcases expandCall_steps h with ⟨-, -, failed⟩ | ⟨-, parameters, s₁, body, s₂, bound, run, rfl, rfl⟩
  · exact (no_failure sound failed).elim
  · have sound₂ : s₂.errors = [] := sound
    obtain ⟨methods, instances⟩ := bindVars_keeps bound
    obtain ⟨advances, traces⟩ := elaborateBody_traces tracing sound₂ run
    have entered : s.Advances AnnotatedMethod s₁ := .of_step
      ((enteredExpansion_grows here call key s).trans (bindVars_grows bound)) methods instances
    refine ⟨(entered.trans advances).trans (.assigned _ _), ?_⟩
    refine .node traces rfl rfl ⟨fun outer => ?_, fun outer => ?_⟩ stands
      (traces.keyed.throughCall _ _) fun target outer => Completions.exitTy?_throughCall ?_
    · exact traces.alone (.break (.call ⟨s.nextSite⟩)) outer
    · exact traces.alone (.frame ⟨s.nextFrame⟩) outer
    · rintro own
      simp only [List.mem_cons, List.not_mem_nil, or_false] at own
      rcases own with rfl | rfl
      · exact outer List.mem_cons_self
      · exact outer (List.mem_cons_of_mem _ List.mem_cons_self)

/-- A method is called with the receiver, or with the main object in the place of one that is not
needed. -/
theorem elaborateMethodCall_calls {call : CallSyntax} {m : MethodEntry} {receiver : Typed.Expr}
    {receiverType : Ty} {arguments : List Typed.Expr} {types : List Ty}
    (callee : cx.definitions.method? m.id = some m) (bare : m.owner = none → receiver.IsLeaf)
    (h : elaborateMethodCall cx elaborate here call m receiver receiverType arguments types s =
      some (l, s')) : s.Advances AnnotatedMethod s' ∧ Calls (receiver :: arguments) l := by
  have stands : Stands (calledReceiver m receiver :: arguments) (receiver :: arguments) := by
    rw [calledReceiver]
    cases owner : m.owner with
    | none => exact .other (bare owner) ⟨rfl, rfl⟩ arguments
    | some c => exact .all _
  rcases elaborateMethodCall_steps h with ⟨-, block, -, expanded⟩ | ⟨-, -, -, failed⟩ |
    ⟨-, id, made, rfl⟩
  · exact expandCall_calls tracing sound stands expanded
  · exact (no_failure sound failed).elim
  · have none := Traces.ofResult (s'.tables.result? (calledKey m receiverType types))
    refine ⟨elaborateMethod_advances tracing sound callee made, ?_⟩
    exact .node none (by simp [Elaborated.ofNode, Typed.Node.parts, Typed.Node.operands,
      Typed.Node.landing?]) rfl trivial stands none.keyed fun _ _ => rfl

end Methods

section Calls

variable {call : CallSyntax} {operands : List Typed.Expr} {types : List Ty}
  (consistent : cx.definitions.Consistent)

include consistent

theorem elaborateConstruct_calls {className : String} {arguments : List Typed.Expr}
    (stands : Stands arguments operands)
    (h : elaborateConstruct cx elaborate here call className arguments types s = some (l, s')) :
    s.Advances AnnotatedMethod s' ∧ Calls operands l := by
  have parts {initializer : Option InstanceId} :
      (Typed.Node.construct className initializer arguments).parts = arguments ++ [] := rfl
  rcases elaborateConstruct_steps h with ⟨id, instanceId, chosen, made, rfl⟩ |
    ⟨-, ⟨-, rfl, rfl⟩ | ⟨-, -, failed⟩⟩
  · obtain ⟨m, callee, -⟩ := initializer?_callable consistent chosen
    refine ⟨elaborateMethod_advances tracing sound callee made, ?_⟩
    have silent : Traces [] (match s'.tables.result? ⟨id, s.tables.objectTy className, types⟩ with
        | some _ => .ofNormal (s'.tables.objectTy className)
        | none => Completions.never) := by
      split
      · exact .ofNormal _
      · exact .never
    exact .node silent parts rfl trivial stands silent.keyed fun _ _ => rfl
  · have silent := Traces.ofNormal (s'.tables.objectTy className)
    exact ⟨.refl _, .node silent parts rfl trivial stands silent.keyed fun _ _ => rfl⟩
  · exact (no_failure sound failed).elim

/-- The receiver may be missing from the code only if it neither has parts nor sends anything. -/
theorem elaborateArm_calls (lengths : operands.length = types.length)
    (bare : call.toSelf = true ∨ l.code.node.dropsReceiver = true →
      ∀ c ∈ operands.head?, c.IsLeaf)
    (h : elaborateArm cx elaborate here call operands types s = some (l, s')) :
    s.Advances AnnotatedMethod s' ∧ Calls operands l := by
  rcases elaborateArm_steps h with ⟨e, -, -, failed⟩ | ⟨receiverType, argumentTypes, rfl, rest⟩
  · exact (no_failure sound failed).elim
  · cases operands with
    | nil => cases lengths
    | cons receiver arguments =>
      simp only [List.headD_cons, List.drop_one, List.tail_cons] at rest
      simp only [List.head?_cons, Option.mem_some_iff, forall_eq'] at bare
      rcases rest with ⟨p, -, rfl, rfl⟩ | ⟨c, -, made⟩ | ⟨lib, name, -, rfl, rfl⟩ |
        ⟨id, m, callee, found, called⟩
      · have silent := Traces.ofNormal (p.resultTy receiverType argumentTypes)
        exact ⟨.refl _, .node silent (by simp [Elaborated.ofNode, Typed.Node.parts,
          Typed.Node.operands, Typed.Node.landing?]) rfl trivial (.all _) silent.keyed fun _ _ => rfl⟩
      · have drops : l.code.node.dropsReceiver = true := by
          rcases elaborateConstruct_steps made with ⟨_, _, -, -, rfl⟩ |
            ⟨-, ⟨-, -, rfl⟩ | ⟨-, -, failed⟩⟩
          · rfl
          · rfl
          · exact (no_failure sound failed).elim
        exact elaborateConstruct_calls tracing sound consistent (.rest (bare (.inr drops)) _) made
      · have silent : Traces [] (foreignEnds cx lib name) := .ofResult _
        have stands := Stands.rest (bare (.inr rfl)) arguments
        exact ⟨.refl _, .node silent rfl rfl trivial stands silent.keyed fun _ _ => rfl⟩
      · obtain ⟨n, found', -, global⟩ := Definitions.dispatch?_method consistent callee
        cases found.symm.trans found'
        have itself : cx.definitions.method? m.id = some m := by rwa [consistent.method?_id found]
        exact elaborateMethodCall_calls tracing sound itself (fun owner => bare (.inl (global owner)))
          called

/-- The arms of a call, one beside the other. -/
theorem elaborateArms_traces {temps : List SlotId} {before : List ScopeVar} {chosen : List (List Ty)}
    {arms : List (Typed.Arm × Completions × List ScopeVar)} {earlier : List Typed.Expr}
    {ends : Completions} (traces : Traces earlier ends)
    (lengths : ∀ ts ∈ chosen, ts.length = temps.length)
    (h : elaborateArms cx elaborate here call temps before chosen s = some (arms, s')) :
    s.Advances AnnotatedMethod s' ∧ Traces (earlier ++ arms.map (·.1.body))
      (arms.foldl (fun ends arm => ends.join arm.2.1) ends) := by
  induction chosen generalizing s arms earlier ends with
  | nil =>
    obtain ⟨rfl, rfl⟩ := elaborateArms_nil_steps h
    exact ⟨.refl _, by simpa using traces⟩
  | cons types rest ih =>
    obtain ⟨arm, s₁, others, run, runRest, rfl⟩ := elaborateArms_cons_steps h
    rw [List.forall_mem_cons] at lengths
    have grows := elaborateArms_grows tracing.growing runRest
    have slots : ∀ c ∈ armOperands temps types, c.IsLeaf := by
      intro c member
      obtain ⟨b, -, rfl⟩ := List.mem_map.1 member
      exact ⟨rfl, rfl⟩
    obtain ⟨advances, calls⟩ := elaborateArm_calls tracing (grows.no_errors sound) consistent
      (by simp [armOperands, lengths.1]) (fun _ c first => slots c (List.mem_of_mem_head? first)) run
    obtain ⟨advancesRest, whole⟩ := ih (traces.join (calls.alone slots)) lengths.2 runRest
    exact ⟨((PassState.Advances.assigned _ _).trans advances).trans advancesRest, by simpa using whole⟩

theorem elaborateDispatch_calls (lengths : operands.length = types.length)
    (bare : call.toSelf = true ∨ l.code.node.dropsReceiver = true →
      ∀ c ∈ operands.head?, c.IsLeaf)
    (h : elaborateDispatch cx elaborate here call operands types s = some (l, s')) :
    s.Advances AnnotatedMethod s' ∧ Calls operands l := by
  rcases elaborateDispatch_steps h with ⟨-, single⟩ | ⟨-, ⟨n, -, -, failed⟩ | ⟨chosen, temps, s₁,
    arms, s₂, expanded, made, run, rfl, rfl⟩⟩
  · exact elaborateArm_calls tracing sound consistent lengths bare single
  · exact (no_failure sound failed).elim
  · have sound₂ : s₂.errors = [] := sound
    have sizes := tempSlots_length made
    obtain ⟨methods, instances⟩ := tempSlots_keeps made
    obtain ⟨advances, traces⟩ := elaborateArms_traces tracing sound₂ consistent .never
      (fun ts member => by rw [armsWithin_length expanded ts member, sizes]) run
    have entered : s.Advances AnnotatedMethod s₁ :=
      .of_step (tempSlots_grows made) methods instances
    refine ⟨(entered.trans advances).trans (.assigned _ _), ?_⟩
    exact .node traces (by simp [Elaborated.ofNode, Typed.Node.parts, Typed.Node.operands,
      Typed.Node.landing?]) rfl trivial (.all _) traces.keyed fun _ _ => rfl

/-- A call is one of its operands; the receiver is `self` if none is written. -/
theorem elaboratePlainCall_traces {id : NodeId} {receiver : Option Expr} {name : String}
    {nameSpan : Span} {written : List Expr} {block : Option Block}
    (h : elaboratePlainCall cx elaborate here id receiver name nameSpan written block s =
      some (l, s')) : s.Advances AnnotatedMethod s' ∧ Traces [l.code] l.ends := by
  obtain ⟨parts, ends, s₁, run, ⟨stops, rfl, rfl⟩ | ⟨falls, sent, runSent, rfl, plain⟩⟩ :=
    elaboratePlainCall_steps h
  · exact stopped_traces tracing sound run stops
  · have sound₁ := (elaborateDispatch_grows tracing.growing runSent).no_errors sound
    obtain ⟨advances, traces, -⟩ := operands_traces tracing sound₁ run
    obtain ⟨lengths, typed⟩ := elaborateParts_typed (fun e _ => tracing.typed here e) rfl run falls
    cases receiver with
    | none =>
      have self : (Typed.Expr.ofSlot here.activation.selfSlot
          (some here.activation.selfType)).IsLeaf := ⟨rfl, rfl⟩
      obtain ⟨advancesSent, calls⟩ := elaborateDispatch_calls tracing sound consistent
        (filterMap_length (List.forall_mem_cons.2 ⟨rfl, typed⟩))
        (fun _ c first => Option.some.inj first ▸ self) runSent
      exact ⟨advances.trans advancesSent, calls.onto (traces.besides self) falls⟩
    | some r =>
      have receives : sent.code.node.dropsReceiver = true → ∀ c ∈ parts.head?, c.IsLeaf := by
        intro drops c first
        obtain ⟨code, s₂, runFirst, ⟨-, rest, -, rfl⟩ | ⟨-, rfl, -⟩⟩ := elaborateParts_cons_steps run
        all_goals
          cases first
          exact tracing.constants here r s code s₂ (plain drops r rfl) runFirst
      obtain ⟨advancesSent, calls⟩ := elaborateDispatch_calls tracing sound consistent
        (filterMap_length typed) (fun drops => receives (drops.resolve_left (by simp))) runSent
      exact ⟨advances.trans advancesSent, calls.onto traces falls⟩

omit consistent in
theorem elaborateYield_traces {span : Span} {written : List Expr}
    (h : elaborateYield elaborate here span written s = some (l, s')) :
    s.Advances AnnotatedMethod s' ∧ Traces [l.code] l.ends := by
  obtain ⟨parts, ends, s₁, run, ⟨stops, rfl, rfl⟩ | ⟨falls, ⟨block, site, definer, parameters, s₂,
    body, origin, bound, runBody, rfl⟩ | ⟨e, -, -, failed⟩⟩⟩ := elaborateYield_steps h
  · exact stopped_traces tracing sound run stops
  · obtain ⟨methods, instances⟩ := bindYielded_keeps bound
    obtain ⟨advancesBody, tracesBody⟩ := elaborateBody_traces tracing sound runBody
    have entered : s₁.Advances AnnotatedMethod s₂ := .of_step
      ((grows_assigned s₁ _).trans (bindYielded_grows bound)) methods instances
    have inner := entered.trans advancesBody
    obtain ⟨advances, traces, -⟩ := operands_traces tracing (inner.grows.no_errors sound) run
    exact ⟨advances.trans inner, (traces.andThen tracesBody falls).node
      (by simp [Elaborated.ofNode, Typed.Node.parts, Typed.Node.operands, Typed.Node.landing?]) rfl
      trivial⟩
  · exact (no_failure sound failed).elim

end Calls

end Constructs

section Forms

variable {cx : Setting} {elaborate : Elaborate}

/-- Nothing but a literal is elaborated to the literal `true`. -/
theorem made_untrue : Made fun l => l.code.isTrue = true → l.ends.normal = none where
  node node ends other truth := by
    rw [Elaborated.ofNode, Typed.Expr.isTrue] at truth
    split at truth
    · rename_i same
      exact absurd same (other _)
    · cases truth
  nil := nofun
  stopped _ _ normal _ := normal
  after l ends falls untrue truth := (Completions.andThen_normal _ falls).trans (untrue truth)

theorem elaborateForm_truths {here : Place} {e : Expr} {s s' : PassState} {l : Elaborated}
    (h : elaborateForm cx elaborate here e s = some (l, s')) (falls : l.ends.normal.isSome) :
    l.code.isTrue = e.alwaysTrue := by
  cases always : e.alwaysTrue with
  | true =>
    rw [Expr.alwaysTrue] at always
    split at always
    · rename_i form
      simp only [elaborateForm, form] at h
      obtain ⟨rfl, -⟩ := pure_eq_some.1 h
      rfl
    · cases always
  | false =>
    have literal (v : Literal) (form : e.form = .literal v) :
        (Elaborated.ofNode (.literal v) (.ofNormal (literalTy v))).code.isTrue ≠ true := by
      intro truth
      rw [Elaborated.ofNode, Typed.Expr.isTrue] at truth
      split at truth
      · rename_i same
        cases same
        rw [Expr.alwaysTrue, form] at always
        cases always
      · cases truth
    have untrue : (elaborateForm cx elaborate here e).Always fun l =>
        l.code.isTrue = true → l.ends.normal = none :=
      elaborateForm_always made_untrue (fun v form truth => absurd truth (literal v form))
        fun _ _ _ _ _ _ normal _ => normal
    cases truth : l.code.isTrue with
    | false => rfl
    | true =>
      rw [untrue s l s' h truth] at falls
      cases falls

/-- Each construct sends just what its ends hold, given that its parts do. -/
theorem elaboratePlainForm_tracing (consistent : cx.definitions.Consistent)
    (tracing : elaborate.Tracing) : Elaborate.Tracing (elaboratePlainForm cx elaborate) where
  growing here e s l s' h :=
    elaborateForm_grows tracing.growing here e s l s' (elaboratePlainForm_below cx elaborate here e s _ h)
  typed here e s l s' h :=
    elaborateForm_typed tracing.typed e s l s' (elaboratePlainForm_below cx elaborate here e s _ h)
  truths here e s l s' h := elaborateForm_truths (elaboratePlainForm_below cx elaborate here e s _ h)
  constants here e s l s' constant h := by
    rw [Expr.isConstant] at constant
    split at constant
    · rename_i v form
      simp only [elaboratePlainForm, elaborateForm, form] at h
      rcases elaborateRead_steps h with ⟨-, -, rfl⟩ | ⟨e, -, rfl, -⟩ | ⟨-, c, -, -, rfl⟩ |
        ⟨-, -, rfl⟩ | ⟨-, -, -, rfl⟩ | ⟨-, -, rfl⟩ <;> exact ⟨rfl, rfl⟩
    · cases constant
  traces here e s l s' h sound := by
    cases form : e.form with
    | literal _ | self | defMethod _ | defClass _ | defLib _ =>
      simp only [elaboratePlainForm, elaborateForm, form] at h
      obtain ⟨rfl, rfl⟩ := pure_eq_some.1 h
      exact ⟨.refl _, .leaf ⟨rfl, rfl⟩ _⟩
    | read v =>
      simp only [elaboratePlainForm, elaborateForm, form] at h
      exact elaborateRead_traces sound h
    | assign v _ value =>
      simp only [elaboratePlainForm, elaborateForm, form] at h
      exact elaborateAssignment_traces tracing sound h
    | call receiver name nameSpan arguments block =>
      simp only [elaboratePlainForm, form] at h
      exact elaboratePlainCall_traces tracing sound consistent h
    | yield arguments =>
      simp only [elaboratePlainForm, elaborateForm, form] at h
      exact elaborateYield_traces tracing sound h
    | «return» value | «break» value =>
      simp only [elaboratePlainForm, elaborateForm, form] at h
      exact elaborateExit_traces tracing sound h
    | conditional kind condition consequent alternative =>
      simp only [elaboratePlainForm, elaborateForm, form] at h
      exact elaborateConditional_traces tracing sound h
    | «while» condition body =>
      simp only [elaboratePlainForm, elaborateForm, form] at h
      exact elaborateWhile_traces tracing sound h
    | logical connective left right =>
      simp only [elaboratePlainForm, elaborateForm, form] at h
      exact elaborateLogical_traces tracing sound h
    | not operand =>
      simp only [elaboratePlainForm, elaborateForm, form] at h
      exact elaborateNot_traces tracing sound h

theorem elaboratePlain_tracing (consistent : cx.definitions.Consistent) (fuel : Nat) :
    Elaborate.Tracing (elaboratePlain cx fuel) := by
  induction fuel with
  | zero =>
    exact ⟨fun _ _ _ _ _ => nofun, fun _ _ _ _ _ => nofun, fun _ _ _ _ _ _ => nofun,
      fun _ _ _ _ _ => nofun, fun _ _ _ _ _ => nofun⟩
  | succ fuel ih => exact elaboratePlainForm_tracing consistent ih

end Forms

end TypedBlocks.Inference

import TypedBlocks.Proofs.LastPass

/-!
# Typing of elaborated code

All code of the last pass is well typed against the tables that the pass starts and ends with. Each
construct checks if its parts do, in every context that the finished frame and methods may turn out
to give; and the exits of its code are carried by its ends.
-/
namespace TypedBlocks.Inference

open Typed (InstanceId SlotId Slot Context InSequence)
open Pass

/-- A run of the last pass between two states has made code from given code. The code is well typed
wherever the given code is, once all methods are there, and its exits are those of the given code
or are carried. -/
structure Checks (cx : Setting) (F : Tables) (a : BodyContext) (s : PassState)
    (given codes : List Typed.Expr) (ends : Completions) (s' : PassState) : Prop where
  grows : s.Grows s'
  fixed : s'.Fixed cx F
  finishes : s.Finishes (TypedMethod F) (Realizes F) s'
  typed : ∀ method? Γ, KnowsMethods F method? s'.instances → View F a s'.frame Γ →
    s.frame.Sees Γ → (∀ c ∈ given, c.Checked (F.signatures method?) Γ) →
      ∀ c ∈ codes, c.Checked (F.signatures method?) Γ
  leaves : ∀ c ∈ codes, ∀ target t, c.Leaves target t →
    (∃ d ∈ given, d.Leaves target t) ∨ ends.Carries target t

namespace Checks

variable {cx : Setting} {F : Tables} {a : BodyContext} {s s₁ s' : PassState}
  {given codes ds : List Typed.Expr} {code : Typed.Expr} {c d e : Completions}

/-- A step that finishes methods and makes no code at hand. -/
theorem of_finish (grows : s.Grows s') (fixed : s'.Fixed cx F)
    (finishes : s.Finishes (TypedMethod F) (Realizes F) s') (e : Completions) :
    Checks cx F a s given [] e s' where
  grows := grows
  fixed := fixed
  finishes := finishes
  typed _ _ _ _ _ _ := nofun
  leaves := nofun

/-- A step that makes no code and touches no methods. -/
theorem of_step (grows : s.Grows s') (fixed : s'.Fixed cx F) (methods : s'.methods = s.methods)
    (instances : s'.instances = s.instances) (e : Completions) : Checks cx F a s given [] e s' :=
  of_finish grows fixed (.of_same methods instances) e

theorem refl (fixed : s.Fixed cx F) (e : Completions) : Checks cx F a s given [] e s :=
  of_step (.refl s) fixed rfl rfl e

/-- The given code itself. -/
theorem itself (fixed : s.Fixed cx F) (e : Completions) : Checks cx F a s given given e s where
  grows := .refl s
  fixed := fixed
  finishes := .of_same rfl rfl
  typed _ _ _ _ _ each := each
  leaves c member _ _ leaves := .inl ⟨c, member, leaves⟩

theorem covered (parts : Checks cx F a s given codes c s') (covers : e.Covers c) :
    Checks cx F a s given codes e s' :=
  { parts with
    leaves := fun c member target t leaves =>
      (parts.leaves c member target t leaves).imp_right (covers target t) }

/-- Without given code all exits are carried. -/
theorem carried (parts : Checks cx F a s [] codes c s') (member : code ∈ codes) {target : RunTarget}
    {t : Ty} (leaves : code.Leaves target t) : c.Carries target t :=
  (parts.leaves code member target t leaves).resolve_left (by simp)

/-- Code of another place is checked wherever contexts of this place are contexts of that one. -/
theorem moved {b : BodyContext} (parts : Checks cx F b s given codes e s')
    (views : ∀ Γ, View F a s'.frame Γ → View F b s'.frame Γ) : Checks cx F a s given codes e s' :=
  { parts with typed := fun method? Γ knows view => parts.typed method? Γ knows (views Γ view) }

theorem trans (first : Checks cx F a s given codes e s₁) (second : Checks cx F a s₁ given ds e s') :
    Checks cx F a s given (codes ++ ds) e s' where
  grows := first.grows.trans second.grows
  fixed := second.fixed
  finishes := first.finishes.trans typedMethod_lasting second.finishes second.grows
  typed method? Γ knows view sees each c member := by
    rcases List.mem_append.1 member with early | late
    · exact first.typed method? Γ (knows.earlier second.grows.instances)
        (view.back second.grows.labels) sees each c early
    · exact second.typed method? Γ knows view (sees.mono first.grows.labels) each c late
  leaves c member := by
    rcases List.mem_append.1 member with early | late
    · exact first.leaves c early
    · exact second.leaves c late

/-- Code made from code that is made from the given code. -/
theorem onto (first : Checks cx F a s given codes c s₁) (second : Checks cx F a s₁ codes ds e s')
    (covers : e.Covers c) : Checks cx F a s given ds e s' where
  grows := first.grows.trans second.grows
  fixed := second.fixed
  finishes := first.finishes.trans typedMethod_lasting second.finishes second.grows
  typed method? Γ knows view sees each := second.typed method? Γ knows view
    (sees.mono first.grows.labels) (first.typed method? Γ (knows.earlier second.grows.instances)
      (view.back second.grows.labels) sees each)
  leaves d member target t leaves := by
    rcases second.leaves d member target t leaves with ⟨c, inside, leaves⟩ | carried
    · exact (first.leaves c inside target t leaves).imp_right (covers target t)
    · exact .inr carried

/-- The code is put together from code at hand. -/
theorem node (parts : Checks cx F a s given codes c s') (ds : List Typed.Expr)
    (direct : ∀ Γ, code.node.partsIn Γ = ds.map (Γ, ·)) (among : ∀ d ∈ ds, d ∈ codes)
    (binds : code.node.binds = [])
    (rule : ∀ method? Γ, KnowsMethods F method? s'.instances → View F a s'.frame Γ →
      code.Rule (F.signatures method?) Γ)
    (leaves : ∀ target t, code.Leaves target t →
      (∃ d ∈ given, d.Leaves target t) ∨ e.Carries target t) :
    Checks cx F a s given [code] e s' :=
  { parts with
    typed := fun method? Γ knows view sees each c only => by
      cases List.mem_singleton.1 only
      refine .intro (rule method? Γ knows view) (.of_none binds) fun q member => ?_
      rw [direct] at member
      obtain ⟨d, inside, rfl⟩ := List.mem_map.1 member
      exact parts.typed method? Γ knows view sees each d (among d inside)
    leaves := fun c only => List.mem_singleton.1 only ▸ leaves }

/-- The same for a node that neither ends exits nor is one. -/
theorem plain (parts : Checks cx F a s given codes c s') (ds : List Typed.Expr)
    (direct : ∀ Γ, code.node.partsIn Γ = ds.map (Γ, ·)) (among : ∀ d ∈ ds, d ∈ codes)
    (passes : code.node.binds = [] ∧ code.node.landing? = none ∧ code.node.exit? = none) (covers : e.Covers c)
    (rule : ∀ method? Γ, KnowsMethods F method? s'.instances → View F a s'.frame Γ →
      code.Rule (F.signatures method?) Γ) : Checks cx F a s given [code] e s' := by
  obtain ⟨binds, lands, exits⟩ := passes
  refine parts.node ds direct among binds rule fun target t leaves => ?_
  rcases leaves.source with ⟨d, operand, leaves⟩ | ⟨d, landed, landing, -⟩ | ⟨value, exit, -⟩
  · obtain ⟨Γ, inside⟩ := Typed.Node.mem_partsIn (List.mem_append_left _ operand) ⟨[], []⟩
    rw [direct] at inside
    obtain ⟨d', member, same⟩ := List.mem_map.1 inside
    cases same
    exact (parts.leaves d (among d member) target t leaves).imp_right (covers target t)
  · rw [lands] at landing
    cases landing
  · rw [exits] at exit
    cases exit

/-- Code without parts. -/
theorem leaf (grows : s.Grows s') (fixed : s'.Fixed cx F) (methods : s'.methods = s.methods)
    (instances : s'.instances = s.instances) (parts : ∀ Γ, code.node.partsIn Γ = [])
    (passes : code.node.binds = [] ∧ code.node.landing? = none ∧ code.node.exit? = none)
    (rule : ∀ method? Γ, KnowsMethods F method? s'.instances → View F a s'.frame Γ →
      code.Rule (F.signatures method?) Γ) : Checks cx F a s given [code] e s' :=
  (of_step grows fixed methods instances e).plain [] parts nofun passes (fun _ _ => id) rule

/-- Operands in front that are hidden slots of the frame, or the main object. -/
theorem cons_leaf {first : Typed.Expr} (parts : Checks cx F a s given codes e s')
    (typed : ∀ method? Γ, View F a s'.frame Γ → first.Checked (F.signatures method?) Γ)
    (stays : ∀ target t, ¬ first.Leaves target t) : Checks cx F a s given (first :: codes) e s' :=
  { parts with
    typed := fun method? Γ knows view sees each =>
      List.forall_mem_cons.2 ⟨typed method? Γ view, parts.typed method? Γ knows view sees each⟩
    leaves := List.forall_mem_cons.2
      ⟨fun target t leaves => (stays target t leaves).elim, parts.leaves⟩ }

theorem subset (parts : Checks cx F a s given codes e s') (fewer : ∀ c ∈ ds, c ∈ codes) :
    Checks cx F a s given ds e s' :=
  { parts with
    typed := fun method? Γ knows view sees each c member =>
      parts.typed method? Γ knows view sees each c (fewer c member)
    leaves := fun c member => parts.leaves c (fewer c member) }

/-- A sequence has the type of its last part, and a single part stands for itself. -/
theorem ofParts {ty : Option Ty} (parts : Checks cx F a s given codes e s')
    (ordered : InSequence codes ty) :
    Checks cx F a s given [Typed.Expr.ofParts codes ty] e s' := by
  obtain ⟨before, last, rfl, typed, rfl⟩ := ordered
  unfold Typed.Expr.ofParts
  split
  · rename_i only whole
    obtain ⟨rfl, single⟩ | ⟨-, impossible⟩ := List.append_eq_singleton_iff.1 whole
    · cases single
      cases last
      exact parts
    · cases impossible
  · refine parts.plain (before ++ [last]) (fun Γ => ?_) (fun _ => id) ⟨rfl, rfl, rfl⟩ (fun _ _ => id)
      fun method? Γ _ _ => ⟨before, last, rfl, typed, rfl⟩
    exact congrArg (List.map (Γ, ·)) (List.append_nil _)

end Checks

/-- An elaboration that keeps the types of the last pass. -/
structure Elaborate.Checking (cx : Setting) (F : Tables) (elaborate : Elaborate) : Prop where
  growing : elaborate.Growing
  knowing : elaborate.Knowing cx .all
  literals : ∀ here e s l s' v, e.form = .literal v → elaborate here e s = some (l, s') →
    l.code.node = .literal v
  checks : ∀ here e s l s', here.Known cx .all → s.Fixed cx F →
    elaborate here e s = some (l, s') → s'.Leads F →
      Checks cx F here.activation s [] [l.code] l.ends s'

section Constructs

variable {cx : Setting} {F : Tables} {elaborate : Elaborate} {here : Place} {s s' : PassState}
  {l : Elaborated} (checking : elaborate.Checking cx F) (place : here.Known cx .all)
  (fixed : s.Fixed cx F) (leads : s'.Leads F)

include checking place fixed leads

theorem Elaborate.Checking.run {e : Expr} (h : elaborate here e s = some (l, s')) :
    Checks cx F here.activation s [] [l.code] l.ends s' ∧ l.Known .all :=
  ⟨checking.checks _ _ _ _ _ place fixed h leads,
    (checking.knowing _ _ _ _ _ trivial place fixed.known h).2⟩

section Sequences

theorem elaborateParts_checks {before ends : Completions} {es : List Expr}
    {codes : List Typed.Expr} (known : before.All (Ty.Known .all)) (falls : before.fallsThrough = true)
    (h : elaborateParts elaborate here before es s = some ((codes, ends), s')) :
    Checks cx F here.activation s [] codes ends s' ∧ ends.All (Ty.Known .all) ∧ ends.Covers before ∧
      (codes = [] ∧ ends = before ∨ InSequence codes ends.normal) := by
  induction es generalizing before codes s with
  | nil =>
    obtain ⟨rfl, rfl, rfl⟩ := elaborateParts_nil_steps h
    exact ⟨.refl fixed _, known, fun _ _ => id, .inl ⟨rfl, rfl⟩⟩
  | cons e es ih =>
    obtain ⟨first, s₁, run, rest⟩ := elaborateParts_cons_steps h
    have closed := fun t u => Ty.Known.join (V := .all) (t := t) (u := u)
    have reached := Completions.andThen_normal first.ends falls
    rcases rest with ⟨fallsOn, rest, runRest, rfl⟩ | ⟨stops, rfl, rfl, rfl⟩
    · have leads₁ := leads.back (elaborateParts_grows checking.growing runRest)
      obtain ⟨checksFirst, knownFirst⟩ := checking.run place fixed leads₁ run
      obtain ⟨checksRest, all, covers, ordered⟩ := ih checksFirst.fixed
        (known.andThen closed knownFirst.ends) fallsOn runRest
      have firstTy : first.code.ty = (before.andThen first.ends).normal :=
        knownFirst.typed.trans reached.symm
      refine ⟨(checksFirst.covered fun target t carries => covers target t
        (carries.andThen_right falls known knownFirst.ends)).trans checksRest, all,
        fun target t carries => covers target t (carries.andThen_left known knownFirst.ends), .inr ?_⟩
      rcases ordered with ⟨rfl, same⟩ | ⟨init, last, rfl, typed, same⟩
      · exact ⟨[], first.code, rfl, nofun, by rw [same, firstTy]⟩
      · refine ⟨first.code :: init, last, rfl, List.forall_mem_cons.2 ⟨?_, typed⟩, same⟩
        rw [firstTy]
        exact fallsOn
    · obtain ⟨checksFirst, knownFirst⟩ := checking.run place fixed leads run
      refine ⟨checksFirst.covered fun target t carries =>
        carries.andThen_right falls known knownFirst.ends, known.andThen closed knownFirst.ends,
        fun target t carries => carries.andThen_left known knownFirst.ends, .inr ?_⟩
      exact ⟨[], first.code, rfl, nofun, by rw [reached, knownFirst.typed]⟩

theorem elaborateBody_checks {body : List Expr}
    (h : elaborateBody elaborate here body s = some (l, s')) :
    Checks cx F here.activation s [] [l.code] l.ends s' ∧ l.Known .all := by
  refine ⟨?_, (elaborateBody_known checking.knowing place fixed.known (fun _ _ => trivial) h).2⟩
  rcases elaborateBody_steps h with ⟨-, rfl, rfl⟩ | ⟨nonempty, parts, ends, run, rfl⟩
  · exact .leaf (.refl _) fixed rfl rfl (fun _ => rfl) ⟨rfl, rfl, rfl⟩ fun _ _ _ _ => rfl
  · obtain ⟨checks, -, -, ⟨rfl, -⟩ | ordered⟩ := elaborateParts_checks checking place fixed leads
      (Completions.ofNormal_all .nil) rfl run
    · cases body with
      | nil => exact absurd rfl nonempty
      | cons e es =>
        obtain ⟨first, s₁, -, ⟨-, rest, -, impossible⟩ | ⟨-, impossible, -⟩⟩ :=
          elaborateParts_cons_steps run <;> cases impossible
    · exact checks.ofParts ordered

/-- Operands that stop early stand for the whole. -/
theorem stopped_checks {es : List Expr} {codes : List Typed.Expr} {ends : Completions}
    (h : elaborateParts elaborate here (Completions.ofNormal Ty.nil) es s = some ((codes, ends), s'))
    (stops : ends.fallsThrough = false) :
    Checks cx F here.activation s [] [Typed.Expr.ofParts codes none] ends s' := by
  obtain ⟨checks, -, -, ⟨-, rfl⟩ | ordered⟩ := elaborateParts_checks checking place fixed leads
    (Completions.ofNormal_all .nil) rfl h
  · cases stops
  · have none : ends.normal = none := by simpa [Completions.fallsThrough] using stops
    rw [none] at ordered
    exact checks.ofParts ordered

end Sequences

section Leaves

omit checking in
theorem elaborateRead_checks {e : Expr} {v : Variable} (form : e.form = .read v)
    (h : elaborateRead cx here e.span v s = some (l, s')) :
    Checks cx F here.activation s [] [l.code] l.ends s' := by
  obtain ⟨known', -⟩ :=
    elaborateRead_known (Vocabulary.all_covers cx) place fixed.known trivial form h
  have leaf (code : Typed.Expr) (parts : ∀ Γ, code.node.partsIn Γ = [])
      (passes : code.node.binds = [] ∧ code.node.landing? = none ∧ code.node.exit? = none)
      (rule : ∀ method? Γ, View F here.activation s.frame Γ → code.Rule (F.signatures method?) Γ) :
      Checks cx F here.activation s [] [code] l.ends s :=
    .leaf (.refl s) fixed rfl rfl parts passes fun method? Γ _ view => rule method? Γ view
  rcases elaborateRead_steps h with ⟨-, rfl, rfl⟩ | ⟨e, -, -, failed⟩ | ⟨-, c, object, rfl, rfl⟩ |
    ⟨-, rfl, rfl⟩ | ⟨-, -, rfl, rfl⟩ | ⟨-, rfl, rfl⟩
  · have scope := place.scopeVar v.name
    have fixed' := fixed.next (readLocal_grows _ _) leads known' fixed.entered
    have entry : ∃ t, F.var? ⟨(here.activation.scopeOf cx.captures v.name).1, v.name⟩ = some t := by
      by_cases assigned : s.assigned.any
          (· == ⟨(here.activation.scopeOf cx.captures v.name).1, v.name⟩) = true
      · exact fixed.entry_of_assigned scope assigned
      · have same := fixed'.tables
        simp only [readLocal, assigned, if_false, Bool.false_eq_true] at same
        rw [fixed.tables] at same
        obtain ⟨t, entry, -⟩ := fixed.final.covers_var scope .nil same
        exact ⟨t, entry⟩
    obtain ⟨t, entry⟩ := entry
    refine .leaf (readLocal_grows _ _) fixed' rfl rfl (fun _ => rfl) ⟨rfl, rfl, rfl⟩
      fun method? Γ _ view => ⟨t, ?_, .inl (view.slotTy (lookedUp_holds fixed.known.slots scope _)
        fixed.final scope entry)⟩
    rw [fixed'.tables, entry]
    rfl
  · exact (leads.no_failure failed).elim
  · refine leaf _ (fun _ => rfl) ⟨rfl, rfl, rfl⟩ fun method? Γ view => ⟨c, view.holdsObject object, ?_⟩
    rw [fixed.tables]
    exact congrArg some (signatures_instanceTy c v.name).symm
  · refine leaf _ (fun _ => rfl) ⟨rfl, rfl, rfl⟩ fun method? Γ view => ?_
    rw [fixed.tables]
    rfl
  · exact leaf _ (fun _ => rfl) ⟨rfl, rfl, rfl⟩ fun method? Γ view => rfl
  · refine leaf _ (fun _ => rfl) ⟨rfl, rfl, rfl⟩ fun method? Γ view => ?_
    rw [fixed.tables]
    rfl

theorem elaborateAssignment_checks {e : Expr} {v : Variable} {span : Span} {value : Expr}
    (form : e.form = .assign v span value)
    (h : elaborateAssignment cx elaborate here e.span v value s = some (l, s')) :
    Checks cx F here.activation s [] [l.code] l.ends s' := by
  obtain ⟨known', -⟩ := elaborateAssignment_known (Vocabulary.all_covers cx) checking.knowing place
    fixed.known trivial form h
  obtain ⟨first, s₁, run, ⟨-, rfl, rfl⟩ | ⟨t, normal, rest⟩⟩ := elaborateAssignment_steps h
  · exact checking.checks _ _ _ _ _ place fixed run leads
  · have grows : s₁.Grows s' := by
      rcases rest with ⟨-, -, rfl⟩ | ⟨-, -, -, rfl⟩ | ⟨-, c, -, -, rfl⟩ | ⟨-, -, rfl⟩ | ⟨-, -, rfl⟩
      · exact assignLocal_grows _ _ _
      · exact grows_with_error _ _
      · exact grows_tables _ (.extendLayout _ _ _ _)
      · exact grows_tables _ (.extendGlobal _ _ _)
      · exact grows_tables _ (.extendConstant _ _ _)
    obtain ⟨checks, known⟩ := checking.run place fixed (leads.back grows) run
    have fixed₁ := checks.fixed
    have type := known.ends.normal t normal
    have typed : first.code.ty = some t := known.typed.trans normal
    -- The value is all there is to the code, whatever the assignment enters.
    have assigns {code : Typed.Expr} (entered : ∀ k ∈ s'.assigned, ∃ t, F.var? k = some t)
        (methods : s'.methods = s₁.methods) (instances : s'.instances = s₁.instances)
        (parts : ∀ Γ, code.node.partsIn Γ = [(Γ, first.code)])
        (passes : code.node.binds = [] ∧ code.node.landing? = none ∧ code.node.exit? = none)
        (rule : s'.tables = F → ∀ method? Γ, View F here.activation s'.frame Γ →
          code.Rule (F.signatures method?) Γ) :
        Checks cx F here.activation s [] [code] first.ends s' := by
      have fixed' := fixed₁.next grows leads known' entered
      exact (checks.trans (.of_step grows fixed' methods instances _)).plain [first.code] parts
        (fun _ => id) passes (fun _ _ => id) fun method? Γ _ view => rule fixed'.tables method? Γ view
    rcases rest with ⟨-, rfl, rfl⟩ | ⟨-, -, -, failed⟩ | ⟨-, c, object, rfl, rfl⟩ | ⟨-, rfl, rfl⟩ |
      ⟨-, rfl, rfl⟩
    · have scope := place.scopeVar v.name
      have holds := lookedUp_holds fixed₁.known.slots scope
        (here.activation.scopeOf cx.captures v.name).2
      have tables := (fixed₁.final.reduced.antisymm (fixed₁.tables ▸ grows.tables) leads.tables)
      obtain ⟨u, entry, below⟩ := fixed₁.final.covers_var scope type (fixed₁.tables ▸ tables)
      refine assigns (fixed₁.marked ⟨u, entry⟩) rfl rfl (fun _ => rfl) ⟨rfl, rfl, rfl⟩
        fun _ method? Γ view => ⟨known.typed.symm, ?_⟩
      rw [typed]
      exact view.stores ⟨_, u, holds, scope, entry, below⟩ fixed₁.final
    · exact (leads.no_failure failed).elim
    · refine assigns fixed₁.entered rfl rfl (fun _ => rfl) ⟨rfl, rfl, rfl⟩
        fun tables method? Γ view => ⟨known.typed.symm, ?_⟩
      obtain ⟨u, entry, below⟩ := fixed₁.final.covers_layout type (fixed₁.tables ▸ tables)
      exact ⟨c, t, u, view.holdsObject object, typed, entry, below⟩
    · refine assigns fixed₁.entered rfl rfl (fun _ => rfl) ⟨rfl, rfl, rfl⟩
        fun tables method? Γ view => ⟨known.typed.symm, ?_⟩
      obtain ⟨u, entry, below⟩ := fixed₁.final.covers_global type (fixed₁.tables ▸ tables)
      exact ⟨t, u, typed, entry, below⟩
    · refine assigns fixed₁.entered rfl rfl (fun _ => rfl) ⟨rfl, rfl, rfl⟩
        fun tables method? Γ view => ⟨known.typed.symm, ?_⟩
      obtain ⟨u, entry, below⟩ := fixed₁.final.covers_constant type (fixed₁.tables ▸ tables)
      exact ⟨t, u, typed, entry, below⟩

end Leaves

section Control

theorem elaborateExit_checks {e : Expr} {keyword : String} {value : Option Expr}
    (h : elaborateExit cx elaborate here e.id e.span keyword value s = some (l, s')) :
    Checks cx F here.activation s [] [l.code] l.ends s' := by
  obtain ⟨first, s₁, run, rest⟩ := elaborateExit_steps h
  have grows : s₁.Grows s' := by
    rcases rest with ⟨-, -, rfl⟩ | ⟨t, -, ⟨f, -, rfl, -⟩ | ⟨b, -, rfl, -⟩ | ⟨-, -, rfl⟩⟩
    · exact .refl _
    · exact .refl _
    · exact .refl _
    · exact grows_with_error _ _
  have valueChecks : Checks cx F here.activation s [] [first.code] first.ends s₁ ∧
      first.Known .all := by
    cases value with
    | none =>
      obtain ⟨rfl, rfl⟩ := pure_eq_some.1 run
      exact ⟨.leaf (.refl _) fixed rfl rfl (fun _ => rfl) ⟨rfl, rfl, rfl⟩ fun _ _ _ _ => rfl,
        elaborated_nil_known⟩
    | some d => exact checking.run place fixed (leads.back grows) run
  obtain ⟨checks, known⟩ := valueChecks
  -- Exits of the value are carried along with the one of the node itself.
  have exits {node : Typed.Node} {x : Completion} {target : RunTarget} {t : Ty}
      (normal : first.ends.normal = some t) (exit : node.exit? = some (target, first.code))
      (added : x.exit? = some (target, t)) (new : (Completions.never.add x).All (Ty.Known .all))
      (stops : (first.ends.dropNormal.add x).normal = none)
      (parts : ∀ Γ, node.partsIn Γ = [(Γ, first.code)]) (binds : node.binds = [])
      (passes : node.landing? = none)
      (rule : ∀ σ Γ, Typed.Expr.Rule σ Γ ⟨none, node⟩ ↔ first.code.ty.isSome ∧ (none : Option Ty) = none) :
      Checks cx F here.activation s [] [(Elaborated.ofNode node (first.ends.dropNormal.add x)).code]
        (first.ends.dropNormal.add x) s₁ := by
    have typed : first.code.ty = some t := known.typed.trans normal
    refine checks.node [first.code] parts (fun _ => id) binds (fun method? Γ _ _ => ?_)
      fun target' u leaves => .inr ?_
    · rw [Elaborated.ofNode, stops, rule, typed]
      exact ⟨rfl, rfl⟩
    · rcases leaves.source with ⟨d, operand, leaves⟩ | ⟨d, landed, landing, -⟩ | ⟨d, own, type⟩
      · obtain ⟨Γ, inside⟩ := Typed.Node.mem_partsIn (List.mem_append_left _ operand) ⟨[], []⟩
        rw [Elaborated.ofNode, parts, List.mem_singleton, Prod.mk.injEq] at inside
        rw [inside.2] at leaves
        exact (checks.carried List.mem_cons_self leaves).dropNormal.add known.ends.dropNormal x new
      · rw [Elaborated.ofNode, passes] at landing
        cases landing
      · rw [Elaborated.ofNode, exit] at own
        cases own
        cases typed.symm.trans type
        exact Completions.add_carries known.ends.dropNormal new added
  rcases rest with ⟨-, rfl, rfl⟩ | ⟨t, normal, ⟨f, -, rfl, rfl⟩ | ⟨b, -, rfl, rfl⟩ | ⟨-, -, failed⟩⟩
  · exact checks
  · refine exits (t := t) normal rfl rfl ?_ rfl (fun _ => rfl) rfl rfl fun _ _ => Iff.rfl
    exact Completions.add_known Completions.never_all
      ⟨nofun, fun r only => List.mem_singleton.1 only ▸ known.ends.normal t normal, nofun⟩
  · refine exits (t := t) normal rfl rfl ?_ rfl (fun _ => rfl) rfl rfl fun _ _ => Iff.rfl
    exact Completions.add_known Completions.never_all
      ⟨nofun, nofun, fun r only => List.mem_singleton.1 only ▸ known.ends.normal t normal⟩
  · exact (leads.no_failure failed).elim

theorem elaborateNot_checks {operand : Expr}
    (h : elaborateNot elaborate here operand s = some (l, s')) :
    Checks cx F here.activation s [] [l.code] l.ends s' := by
  obtain ⟨first, run, ⟨-, rfl⟩ | ⟨normal, rfl⟩⟩ := elaborateNot_steps h
  · exact checking.checks _ _ _ _ _ place fixed run leads
  · obtain ⟨checks, known⟩ := checking.run place fixed leads run
    exact checks.plain [first.code] (fun _ => rfl) (fun _ => id) ⟨rfl, rfl, rfl⟩
      (fun target t carries => carries.dropNormal.joinNormal _)
      fun method? Γ _ _ => ⟨known.typed ▸ normal, rfl⟩

theorem elaborateConditional_checks {kind : ConditionKind} {condition : Expr}
    {consequent : List Expr} {alternative : Option (List Expr)}
    (h : elaborateConditional elaborate here kind condition consequent alternative s =
      some (l, s')) : Checks cx F here.activation s [] [l.code] l.ends s' := by
  obtain ⟨c, s₁, run, ⟨-, rfl, rfl⟩ | ⟨normal, first, s₂, second, s₃, runFirst, runSecond, rfl,
    rfl⟩⟩ := elaborateConditional_steps h
  · exact checking.checks _ _ _ _ _ place fixed run leads
  · have leads₃ := leads.back (grows_assigned s₃ _)
    have leads₂ := (leads₃.back (elaborateBody_grows checking.growing runSecond)).back
      (grows_assigned s₂ _)
    obtain ⟨checks₁, known⟩ := checking.run place fixed
      (leads₂.back (elaborateBody_grows checking.growing runFirst)) run
    obtain ⟨checks₂, knownFirst⟩ := elaborateBody_checks checking place checks₁.fixed leads₂ runFirst
    have between := checks₂.fixed.withAssignedOf checks₁.fixed
    obtain ⟨checks₃, knownSecond⟩ := elaborateBody_checks checking place between leads₃ runSecond
    have after : PassState.Fixed cx F { s₃ with
        assigned := assignedAfter s₁.assigned [(first.ends.fallsThrough, s₂.assigned),
          (second.ends.fallsThrough, s₃.assigned)] } := by
      have each {P : ScopeVar → Prop} (p₁ : ∀ k ∈ s₁.assigned, P k) (p₂ : ∀ k ∈ s₂.assigned, P k)
          (p₃ : ∀ k ∈ s₃.assigned, P k) := assignedAfter_all (P := P)
        [(first.ends.fallsThrough, s₂.assigned), (second.ends.fallsThrough, s₃.assigned)] p₁
        (List.forall_mem_cons.2 ⟨p₂, List.forall_mem_cons.2 ⟨p₃, nofun⟩⟩)
      exact checks₃.fixed.withAssigned
        (each checks₁.fixed.known.assigned checks₂.fixed.known.assigned checks₃.fixed.known.assigned)
        (each checks₁.fixed.entered checks₂.fixed.entered checks₃.fixed.entered)
    -- Whichever branch stands first, exits of the condition and of both branches are carried.
    have covers {yes no : Completions} (allYes : yes.All (Ty.Known .all))
        (allNo : no.All (Ty.Known .all)) :
        ((c.ends.dropNormal.join yes).join no).Covers c.ends ∧
          ((c.ends.dropNormal.join yes).join no).Covers yes ∧
            ((c.ends.dropNormal.join yes).join no).Covers no := by
      have start := known.ends.dropNormal
      have both := start.join (fun _ _ => Ty.Known.join) allYes
      exact ⟨fun _ _ carries => (carries.dropNormal.join_left start allYes).join_left both allNo,
        fun _ _ carries => (carries.join_right start allYes).join_left both allNo,
        fun _ _ carries => carries.join_right both allNo⟩
    have whole {e : Completions} (start : e.Covers c.ends) (one : e.Covers first.ends)
        (other : e.Covers second.ends) := (((checks₁.covered start).trans (checks₂.covered one)).trans
      (.of_step (grows_assigned s₂ s₁.assigned) between rfl rfl e)).trans ((checks₃.covered other).trans
        (.of_step (grows_assigned s₃ _) after rfl rfl e))
    have condition : c.code.ty.isSome := known.typed ▸ normal
    cases kind with
    | «if» =>
      obtain ⟨start, one, other⟩ := covers knownFirst.ends knownSecond.ends
      refine (whole start one other).plain [c.code, first.code, second.code] (fun _ => rfl) (by simp)
        ⟨rfl, rfl, rfl⟩ (fun _ _ => id) fun method? Γ _ _ => ⟨condition, ?_⟩
      simp [branches, knownFirst.typed, knownSecond.typed]
    | «unless» =>
      obtain ⟨start, other, one⟩ := covers knownSecond.ends knownFirst.ends
      refine (whole start one other).plain [c.code, second.code, first.code] (fun _ => rfl) (by simp)
        ⟨rfl, rfl, rfl⟩ (fun _ _ => id) fun method? Γ _ _ => ⟨condition, ?_⟩
      simp [branches, knownFirst.typed, knownSecond.typed]

theorem elaborateWhile_checks {id : NodeId} {condition : Expr} {body : List Expr}
    (h : elaborateWhile elaborate here id condition body s = some (l, s')) :
    Checks cx F here.activation s [] [l.code] l.ends s' := by
  obtain ⟨c, s₁, run, ⟨-, rfl, rfl⟩ | ⟨normal, b, s₂, runBody, rfl, rfl⟩⟩ := elaborateWhile_steps h
  · exact checking.checks _ _ _ _ _ place fixed run leads
  · have leads₂ := leads.back (grows_assigned s₂ _)
    have leads₁ := (leads₂.back (elaborateBody_grows checking.growing runBody)).back (grows_loop s₁)
    obtain ⟨checks₁, known⟩ := checking.run place fixed leads₁ run
    have counted : ({ s₁ with nextLoop := s₁.nextLoop + 1 } : PassState).Fixed cx F :=
      ⟨{ checks₁.fixed.known with }, checks₁.fixed.tables, checks₁.fixed.entered⟩
    obtain ⟨checks₂, knownBody⟩ := elaborateBody_checks checking (place.inLoop id ⟨s₁.nextLoop⟩)
      counted leads₂ runBody
    have after := checks₂.fixed.withAssignedOf checks₁.fixed
    have start := known.ends.dropNormal
    have looped := knownBody.ends.throughLoop (fun _ _ => Ty.Known.join) ⟨s₁.nextLoop⟩
      (!condition.alwaysTrue) .nil
    have all := known.ends.join (fun _ _ => Ty.Known.join) knownBody.ends
    -- Taken together the parts may break out of the loop, but the loop may not.
    have parts := ((checks₁.covered fun _ _ carries => carries.join_left known.ends knownBody.ends).trans
      (.of_step (grows_loop s₁) counted rfl rfl _)).trans
        (((checks₂.covered fun _ _ carries => carries.join_right known.ends knownBody.ends).moved
          fun Γ view => view.inLoop id ⟨s₁.nextLoop⟩).trans
            (.of_step (grows_assigned s₂ s₁.assigned) after rfl rfl _))
    refine parts.node [c.code, b.code] (fun _ => rfl) (by simp) rfl (fun method? Γ _ _ => ?_)
      fun target t leaves => .inr ?_
    · have result : (c.ends.dropNormal.join (b.ends.throughLoop ⟨s₁.nextLoop⟩
          !condition.alwaysTrue)).normal =
            (b.ends.throughLoop ⟨s₁.nextLoop⟩ !condition.alwaysTrue).normal := by
        rw [Completions.join_normal, Completions.dropNormal_normal,
          Completions.mergeOption_none_left]
      refine ⟨known.typed ▸ normal, fun t leaves => ?_, fun finite => ?_⟩
      · rw [result]
        exact (checks₂.carried List.mem_cons_self leaves).throughLoop_normal knownBody.ends
      · have stops : condition.alwaysTrue = false := by
          rw [Expr.alwaysTrue]
          split
          · rename_i form
            exact absurd (checking.literals _ _ _ _ _ _ form run) finite
          · rfl
        rw [result, stops]
        exact Completions.throughLoop_nil knownBody.ends _
    · rcases leaves.source with ⟨d, operand, leaves⟩ | ⟨d, landed, landing, passes, leaves⟩ |
        ⟨d, own, -⟩
      · cases List.mem_singleton.1 operand
        exact (checks₁.carried List.mem_cons_self leaves).dropNormal.join_left start looped
      · cases landing
        exact ((checks₂.carried List.mem_cons_self leaves).throughLoop passes).join_right start looped
      · cases own

theorem elaborateLogical_checks {connective : Connective} {left right : Expr}
    (h : elaborateLogical elaborate here connective left right s = some (l, s')) :
    Checks cx F here.activation s [] [l.code] l.ends s' := by
  obtain ⟨first, s₁, run, ⟨-, rfl, rfl⟩ | ⟨t, second, s₂, normal, runRight, rfl, rfl⟩⟩ :=
    elaborateLogical_steps h
  · exact checking.checks _ _ _ _ _ place fixed run leads
  · have leads₂ := leads.back (grows_assigned s₂ _)
    obtain ⟨checks₁, known⟩ := checking.run place fixed
      (leads₂.back (checking.growing _ _ _ _ _ runRight)) run
    obtain ⟨checks₂, knownRight⟩ := checking.run place checks₁.fixed leads₂ runRight
    have after := checks₂.fixed.withAssignedOf checks₁.fixed
    have start := known.ends.dropNormal
    have parts := ((checks₁.covered fun _ _ carries =>
      (carries.dropNormal.join_left start knownRight.ends).joinNormal (some t)).trans
        (checks₂.covered fun _ _ carries =>
          (carries.join_right start knownRight.ends).joinNormal (some t))).trans
            (.of_step (grows_assigned s₂ s₁.assigned) after rfl rfl _)
    have typed : first.code.ty = some t := known.typed.trans normal
    have result : ((first.ends.dropNormal.join second.ends).joinNormal (some t)).normal =
        Ty.mergeOption second.code.ty first.code.ty := by
      rw [typed, knownRight.typed, Completions.joinNormal, Completions.join_normal,
        Completions.dropNormal_normal, Completions.mergeOption_none_left]
    cases connective
    all_goals
      exact parts.plain [first.code, second.code] (fun _ => rfl) (by simp) ⟨rfl, rfl, rfl⟩
        (fun _ _ => id) fun method? Γ _ _ => ⟨by rw [typed]; rfl, result⟩

end Control

section Binding

omit checking place leads fixed in
theorem bindVar_checks {a : BodyContext} {path : ScopeChain} {name : String} {t : Ty} {id : SlotId}
    (fixed : s.Fixed cx F) (leads : s'.Leads F) (scope : ScopeVar.Known cx .all ⟨path, name⟩)
    (type : t.Known .all) (h : bindVar path name t s = some (id, s')) (e : Completions) :
    Checks cx F a s [] [] e s' ∧ s'.frame.Takes cx F id t := by
  have grows := bindVar_grows h
  have known := fixed.known.bindVar scope trivial type h
  rw [bindVar_run] at h
  cases h
  have tables := fixed.final.reduced.antisymm (fixed.tables ▸ grows.tables) leads.tables
  obtain ⟨u, entry, below⟩ := fixed.final.covers_var scope type (fixed.tables ▸ tables)
  refine ⟨.of_step grows (fixed.next grows leads known (fixed.marked ⟨u, entry⟩)) rfl rfl e, ?_⟩
  exact ⟨⟨path, name⟩, u, fixed.known.slots.slotFor_holds scope, scope, entry, below⟩

omit checking place leads fixed in
theorem bindVars_checks {a : BodyContext} {path : ScopeChain}
    (scope : PathKnown cx .all cx.limits.maxInlineDepth path) {ps : List Parameter} {ts : List Ty}
    {ids : List SlotId} (fixed : s.Fixed cx F) (leads : s'.Leads F)
    (types : ∀ t ∈ ts, t.Known .all) (h : bindVars path ps ts s = some (ids, s')) (e : Completions) :
    Checks cx F a s [] [] e s' ∧ ∀ b ∈ ids.zip ts, s'.frame.Takes cx F b.1 b.2 := by
  induction ps generalizing ts ids s with
  | nil =>
    obtain ⟨rfl, rfl⟩ := pure_eq_some.1 h
    exact ⟨.refl fixed e, nofun⟩
  | cons p ps ih =>
    cases ts with
    | nil =>
      obtain ⟨rfl, rfl⟩ := pure_eq_some.1 h
      exact ⟨.refl fixed e, nofun⟩
    | cons t ts =>
      obtain ⟨id, s₁, bound, h⟩ := bind_eq_some.1 h
      obtain ⟨rest, s₂, boundRest, h⟩ := bind_eq_some.1 h
      obtain ⟨rfl, rfl⟩ := pure_eq_some.1 h
      rw [List.forall_mem_cons] at types
      have grows := bindVars_grows boundRest
      obtain ⟨checks, takes⟩ := bindVar_checks fixed (leads.back grows) scope types.1 bound e
      obtain ⟨checksRest, takesRest⟩ := ih checks.fixed types.2 boundRest
      exact ⟨checks.trans checksRest,
        List.forall_mem_cons.2 ⟨takes.mono grows.labels, takesRest⟩⟩

omit checking place leads fixed in
theorem bindYielded_checks {a : BodyContext} {path : ScopeChain}
    (scope : PathKnown cx .all cx.limits.maxInlineDepth path) {ps : List BlockParameter}
    {parts : List Typed.Expr} {ids : List SlotId} (fixed : s.Fixed cx F) (leads : s'.Leads F)
    (typed : ∀ c ∈ parts, c.ty.isSome) (types : ∀ c ∈ parts, ∀ t ∈ c.ty, t.Known .all)
    (h : bindYielded path ps parts s = some (ids, s')) (e : Completions) :
    Checks cx F a s [] [] e s' ∧
      (∀ b ∈ ids.zip parts, ∃ t, b.2.ty = some t ∧ s'.frame.Takes cx F b.1 t) ∧
        ∀ id ∈ ids.drop parts.length, s'.frame.Takes cx F id Ty.nil := by
  induction ps generalizing parts ids s with
  | nil =>
    obtain ⟨rfl, rfl⟩ := pure_eq_some.1 h
    exact ⟨.refl fixed e, nofun, by simp⟩
  | cons p ps ih =>
    obtain ⟨id, s₁, bound, h⟩ := bind_eq_some.1 h
    obtain ⟨rest, s₂, boundRest, h⟩ := bind_eq_some.1 h
    obtain ⟨rfl, rfl⟩ := pure_eq_some.1 h
    have grows := bindYielded_grows boundRest
    cases parts with
    | nil =>
      obtain ⟨checks, takes⟩ := bindVar_checks fixed (leads.back grows) scope .nil bound e
      obtain ⟨checksRest, -, missing⟩ := ih checks.fixed (by simp) (by simp) boundRest
      exact ⟨checks.trans checksRest, nofun,
        List.forall_mem_cons.2 ⟨takes.mono grows.labels, missing⟩⟩
    | cons c parts =>
      rw [List.forall_mem_cons] at typed types
      obtain ⟨t, type⟩ := Option.isSome_iff_exists.1 typed.1
      have bound' : bindVar path p.name t s = some (id, s₁) := by simpa [type] using bound
      obtain ⟨checks, takes⟩ :=
        bindVar_checks fixed (leads.back grows) scope (types.1 t type) bound' e
      obtain ⟨checksRest, stores, missing⟩ := ih checks.fixed typed.2 types.2 boundRest
      exact ⟨checks.trans checksRest,
        List.forall_mem_cons.2 ⟨⟨t, type, takes.mono grows.labels⟩, stores⟩, missing⟩

omit checking place leads fixed in
theorem tempSlots_checks {a : BodyContext} (given : List Typed.Expr) {ts : List Ty}
    {ids : List SlotId} (fixed : s.Fixed cx F)
    (h : tempSlots ts s = some (ids, s')) (e : Completions) :
    Checks cx F a s given [] e s' ∧ ∀ id ∈ ids, s'.frame.Hides id := by
  induction ts generalizing ids s with
  | nil =>
    obtain ⟨rfl, rfl⟩ := pure_eq_some.1 h
    exact ⟨.refl fixed e, nofun⟩
  | cons t ts ih =>
    have grows := tempSlots_grows h
    simp only [tempSlots] at h
    rw [bind_run (tempSlot_run _)] at h
    obtain ⟨rest, s₂, made, h⟩ := bind_eq_some.1 h
    obtain ⟨rfl, rfl⟩ := pure_eq_some.1 h
    have step : ({ s with frame := (s.frame.tempSlot t).2 } : PassState).Fixed cx F :=
      ⟨{ fixed.known with slots := fixed.known.slots.tempSlot t }, fixed.tables, fixed.entered⟩
    obtain ⟨checksRest, hides⟩ := ih step made
    have labels : s.frame.labels <+: (s.frame.tempSlot t).2.labels := by
      simp [FrameSlots.labels, FrameSlots.tempSlot]
    have first : s.Grows { s with frame := (s.frame.tempSlot t).2 } :=
      .of_parts (.refl _) (List.prefix_refl _) rfl rfl (Nat.le_refl _) (Nat.le_refl _)
        (Nat.le_refl _) labels
    exact ⟨(Checks.of_step first step rfl rfl e).trans checksRest,
      List.forall_mem_cons.2 ⟨(tempSlot_hides t).mono (tempSlots_grows made).labels, hides⟩⟩

omit checking place leads fixed in
/-- Operands get slots of their own. -/
theorem tempSlots_fresh {ts : List Ty} {ids : List SlotId} (h : tempSlots ts s = some (ids, s')) :
    ids.Nodup ∧ ∀ id ∈ ids, s.frame.slots.length ≤ id.val := by
  induction ts generalizing ids s with
  | nil =>
    obtain ⟨rfl, rfl⟩ := pure_eq_some.1 h
    exact ⟨List.nodup_nil, List.forall_mem_nil _⟩
  | cons t ts ih =>
    simp only [tempSlots] at h
    rw [bind_run (tempSlot_run _)] at h
    obtain ⟨rest, s₂, made, h⟩ := bind_eq_some.1 h
    obtain ⟨rfl, rfl⟩ := pure_eq_some.1 h
    obtain ⟨once, later⟩ := ih made
    simp only [FrameSlots.tempSlot, List.length_append, List.length_singleton] at later
    refine ⟨List.nodup_cons.2 ⟨fun again => ?_, once⟩,
      List.forall_mem_cons.2 ⟨Nat.le_refl _, fun id member => Nat.le_of_succ_le (later id member)⟩⟩
    exact absurd (later _ again) (Nat.not_succ_le_self _)

end Binding

section Methods

omit checking place fixed leads in
/-- A body that stands in no other makes a well-typed method, if the result covers its ends. -/
theorem Checks.method {a : BodyContext} {body : Elaborated} {m : Typed.Method}
    {method? : InstanceId → Option Typed.Method}
    (inner : Checks cx F a s [] [body.code] body.ends s') (knownBody : body.Known .all)
    (knows : KnowsMethods F method? s'.instances) (alone : a.origin = .body)
    (hides : s.frame.Hides a.selfSlot) (locals : m.locals = s'.frame.typedSlots F)
    (self : (m.selfSlot, m.selfType) = (a.selfSlot, a.selfType)) (code : m.body = body.code)
    (returned : ∀ t ∈ m.returnType, t.Known .all)
    (result : Ty.OptionLe (body.ends.methodResult m.frame) m.returnType)
    (parameters : ∀ x ∈ m.parameters, ∃ t, s'.frame.Takes cx F x t) :
    m.WellTyped (F.signatures method?) ∧ ∃ f, FrameChecked F (F.signatures method?) f m := by
  have types := knownBody.ends.methodResult (fun _ _ => Ty.Known.join) m.frame
  have proper {b : Option Ty} (all : ∀ t ∈ b, t.Known .all) : ∀ t ∈ b, t.Proper :=
    fun t inside => (all t inside).proper
  have view (g : FrameSlots) (same : s'.frame.labels <+: g.labels) :
      View F a s'.frame ⟨g.typedSlots F, [(m.selfSlot, m.selfType)]⟩ :=
    { slots := ⟨g, same, rfl⟩
      self := by
        rw [self]
        cases a
        cases alone
        exact ⟨List.mem_cons_self, trivial⟩
      hidden := fun b only => by
        rw [self] at only
        cases List.mem_singleton.1 only
        exact ((hides.mono inner.grows.labels).mono same).hidden F }
  have slot : m.selfSlot = a.selfSlot := congrArg Prod.fst self
  have sees (slots : List Slot) : s.frame.Sees ⟨slots, [(m.selfSlot, m.selfType)]⟩ :=
    List.forall_mem_singleton.2 (slot ▸ hides)
  have checked (g : FrameSlots) (same : s'.frame.labels <+: g.labels) :=
    inner.typed method? _ knows (view g same) (sees _) (by rintro _ ⟨⟩) _ List.mem_cons_self
  have below {b : Option Ty} (part : Ty.OptionLe b (body.ends.methodResult m.frame))
      (all : ∀ t ∈ b, t.Known .all) : Ty.OptionLe b m.returnType :=
    part.trans (proper all) (proper types) (proper returned) result
  have returns := knownBody.ends.returnTy? m.frame
  have merged := body.ends.methodResult_eq m.frame
  refine ⟨⟨?_, ?_, fun t leaves => ?_⟩, s'.frame, ?_⟩
  · rw [code, locals]
    exact (checked s'.frame (List.prefix_refl _)).wellTyped
  · rw [code, knownBody.typed]
    exact below (merged ▸ Ty.le_mergeOption_left (proper knownBody.ends.normal) (proper returns))
      knownBody.ends.normal
  · rw [code] at leaves
    exact (inner.carried List.mem_cons_self leaves).reaches knownBody.ends returned
      (below (merged ▸ Ty.le_mergeOption_right (proper knownBody.ends.normal) (proper returns))
        returns)
  · exact {
      named := fun e member k there => (inner.fixed.known.slots.keys e member k there).2
      locals
      self := slot ▸ hides.mono inner.grows.labels
      body := code ▸ checked s'.frame.untyped (s'.frame.untyped_labels ▸ List.prefix_refl _)
      parameters := fun x member => by
        obtain ⟨t, takes⟩ := parameters x member
        exact takes.slotTys inner.fixed.final }

omit place in
/-- A method that a call makes present is finished when the call is, and well typed. -/
theorem elaborateMethod_checks {a : BodyContext} (given : List Typed.Expr) {depth : Nat}
    (shallow : depth ≤ cx.limits.maxInlineDepth) {key : Instantiation} (callee : key.Known cx .all)
    {id : InstanceId} (h : elaborateMethod cx elaborate depth key s = some (id, s'))
    (e : Completions) : Checks cx F a s given [] e s' := by
  have grows := elaborateMethod_grows checking.growing h
  have known' := elaborateMethod_known_types (Vocabulary.all_covers cx) checking.knowing
    fixed.known shallow callee h
  rcases elaborateMethod_steps h with ⟨-, rfl⟩ | ⟨absent, -, ⟨missing, -⟩ | ⟨m, parameters, s₁,
    body, s₂, found, bound, run, rfl⟩⟩
  · exact .refl fixed e
  · obtain ⟨m, found, -⟩ := callee.arity
    rw [missing] at found
    cases found
  · have placeBody := methodPlace_known callee m shallow s
    have path := placeBody.activation.path.mono shallow
    have self : ScopeVar.Known cx .all ⟨[.instance key], "self"⟩ := path
    have entered : (enteredMethod key s).Fixed cx F :=
      ⟨enteredMethod_known fixed.known callee absent path, fixed.tables, fixed.entered⟩
    have leads₂ : s₂.Leads F := ⟨(Tables.Grows.extendResult _ _ _).trans leads.tables, leads.sound⟩
    obtain ⟨checks₁, takes⟩ := bindVars_checks (a := (methodPlace key m depth s).activation) path
      entered (leads₂.back (elaborateBody_grows checking.growing run)) callee.arguments bound body.ends
    obtain ⟨checks₂, knownBody⟩ :=
      elaborateBody_checks checking placeBody checks₁.fixed leads₂ run
    have inner := checks₁.trans checks₂
    have fixed₂ := inner.fixed
    have tables := fixed.final.reduced.antisymm (fixed.tables ▸ grows.tables) leads.tables
    have extended : F.extendResult key (body.ends.methodResult ⟨s.nextFrame⟩) = F :=
      fixed₂.tables ▸ tables
    have locals : (madeMethod key m parameters body s s₂).locals = s₂.frame.typedSlots F := by
      rw [← fixed₂.tables]
      rfl
    have result : (madeMethod key m parameters body s s₂).returnType = F.result? key :=
      congrArg (Tables.result? · key) tables
    have covered := fixed₂.final.covers_result callee
      (knownBody.ends.methodResult (fun _ _ => Ty.Known.join) ⟨s.nextFrame⟩) extended
    have hides := selfBound_hides (t := key.selfType) FrameSlots.Keyed.empty self
    refine .of_finish grows (fixed.next grows leads known' fixed₂.entered) ?_ e
    refine .leftMethod inner.grows inner.finishes (fun method? knows => ?_) ⟨rfl, result, ?_⟩
    · refine inner.method knownBody knows rfl hides locals rfl rfl ?_ ?_ fun x member => ?_
      · rw [result]
        exact fun t found => fixed₂.final.result found
      · rw [result]
        exact covered
      · obtain ⟨m', found', arity⟩ := callee.arity
        cases found.symm.trans found'
        have enough : parameters.length ≤ key.arguments.length :=
          Nat.le_of_eq (bindVars_length bound arity)
        rw [← List.map_fst_zip enough] at member
        obtain ⟨b, given, rfl⟩ := List.mem_map.1 member
        exact ⟨b.2, (takes b given).mono checks₂.grows.labels⟩
    · intro b member
      obtain ⟨slot, u, found, typed, proper, covers⟩ :=
        ((takes b member).mono checks₂.grows.labels).typed fixed₂.final
      refine ⟨u, ?_, proper, covers⟩
      rw [Context.slotTy?, Context.slot?, locals, found, Option.bind_some, typed]

end Methods

section Calls

variable {call : CallSyntax} {arguments : List Typed.Expr} {types : List Ty}

omit checking place fixed leads in
theorem binds_of_takes {Γ : Context} {a : BodyContext} {f : FrameSlots} {ids : List SlotId}
    (view : View F a f Γ) (tables : F.Known cx .all)
    (typed : arguments.map (·.ty) = types.map some)
    (takes : ∀ b ∈ ids.zip types, f.Takes cx F b.1 b.2) : Γ.Binds ids arguments := by
  constructor
  · intro c member
    have there : c.ty ∈ types.map some := typed ▸ List.mem_map_of_mem member
    obtain ⟨t, -, some⟩ := List.mem_map.1 there
    rw [← some]
    rfl
  · induction ids generalizing arguments types with
    | nil => nofun
    | cons id ids ih =>
      cases arguments with
      | nil => nofun
      | cons c arguments =>
        cases types with
        | nil => cases typed
        | cons t types =>
          rw [List.map_cons, List.map_cons, List.cons.injEq] at typed
          rw [List.zip_cons_cons, List.forall_mem_cons] at takes
          rw [List.zip_cons_cons, List.forall_mem_cons, typed.1]
          exact ⟨view.stores takes.1 tables, ih typed.2 takes.2⟩

/-- The body of an expansion is checked where its receiver is known as `self`. -/
theorem expandCall_checks {m : MethodEntry} {key : Instantiation} {block : Block}
    {receiver : Typed.Expr} (callee : key.Known cx .all)
    (found : cx.definitions.method? key.method = some m) (typed : receiver.ty = some key.selfType)
    (argumentsTyped : arguments.map (·.ty) = key.arguments.map some)
    (h : expandCall cx elaborate here call m key block receiver arguments s = some (l, s')) :
    Checks cx F here.activation s (receiver :: arguments) [l.code] l.ends s' := by
  have grows := expandCall_grows checking.growing h
  have blockKnown : BlockKnown .all block := ⟨trivial, fun _ _ => trivial, fun _ _ => trivial⟩
  have known' := (expandCall_known (Vocabulary.all_covers cx) checking.knowing place fixed.known
    trivial blockKnown callee found h).1
  rcases expandCall_steps h with ⟨-, -, failed⟩ | ⟨shallow, parameters, s₁, body, s₂, bound, run,
    rfl, rfl⟩
  · exact (leads.no_failure failed).elim
  · have placeBody : (expansionPlace here call m key block s).Known cx .all :=
      expansionPlace_known place trivial callee blockKnown shallow m s
    have scope := placeBody.activation.path.mono placeBody.depth
    have self : ScopeVar.Known cx .all ⟨expansionPath here call key, "self"⟩ := scope
    have entered : (enteredExpansion here call key s).Fixed cx F :=
      { fixed.withoutAssigned _ with known := enteredExpansion_known fixed.known scope }
    have leads₂ := leads.back (grows_assigned s₂ _)
    obtain ⟨checks₁, takes⟩ := bindVars_checks
      (a := (expansionPlace here call m key block s).activation) scope entered
      (leads₂.back (elaborateBody_grows checking.growing run)) callee.arguments bound body.ends
    obtain ⟨checks₂, knownBody⟩ :=
      elaborateBody_checks checking placeBody checks₁.fixed leads₂ run
    have inner := checks₁.trans checks₂
    have enters := enteredExpansion_grows here call key s
    have fixed' := fixed.next grows leads known' (by
      split
      · exact fixed.entered
      · exact inner.fixed.entered)
    have finishes := (PassState.Finishes.of_same rfl rfl).trans typedMethod_lasting inner.finishes
      inner.grows
    refine ⟨grows, fixed', ⟨finishes.made, finishes.present⟩,
      fun method? Γ knows view sees given c only => ?_,
      fun c only target t leaves => ?_⟩
    · cases List.mem_singleton.1 only
      have first := selfBound_hides (t := key.selfType) fixed.known.slots self
      have hides := first.mono inner.grows.labels
      have viewBody := view.expansion m block hides
      have seesBody : (enteredExpansion here call key s).frame.Sees
          (Γ.bind [((expansionSelf here call key s).1, key.selfType)]) :=
        List.forall_mem_cons.2 ⟨first, sees.mono enters.labels⟩
      refine .intro ⟨by rw [madeExpansion, typed]; rfl, ?_, fun t leaves => ?_, fun t leaves => ?_, ?_⟩
        ⟨List.forall_mem_singleton.2 (view.hides hides), List.nodup_nil, fun _ _ => List.not_mem_nil⟩
        fun q member => ?_
      · exact binds_of_takes view inner.fixed.final argumentsTyped
          fun b there => (takes b there).mono checks₂.grows.labels
      · exact (inner.carried List.mem_cons_self leaves).2
      · exact (inner.carried List.mem_cons_self leaves).2
      · have whole : (madeExpansion here call m key receiver arguments parameters body s s₂).body.ty =
            body.ends.normal := knownBody.typed
        rw [whole]
        exact congrArg Completions.normal (body.ends.throughCall_eq _ _)
      · rcases List.mem_append.1 member with operand | only
        · obtain ⟨d, inside, rfl⟩ := List.mem_map.1 operand
          exact given d inside
        · cases List.mem_singleton.1 only
          have bound : receiver.ty.toList.map ((expansionSelf here call key s).1, ·) =
              [((expansionSelf here call key s).1, key.selfType)] := by rw [typed]; rfl
          change Typed.Expr.Checked _ (Γ.bind (receiver.ty.toList.map
            ((expansionSelf here call key s).1, ·))) body.code
          rw [bound]
          exact inner.typed method? _ knows viewBody seesBody (List.forall_mem_nil _) _
            List.mem_cons_self
    · cases List.mem_singleton.1 only
      rcases leaves.source with ⟨d, operand, leaves⟩ | ⟨d, landed, landing, passes, leaves⟩ |
        ⟨d, own, -⟩
      · exact .inl ⟨d, operand, leaves⟩
      · cases landing
        exact .inr ((inner.carried List.mem_cons_self leaves).throughCall passes)
      · cases own

omit place fixed leads in
/-- The method that a call is for is listed, and takes the operands of the call. -/
theorem callee_of_listed {depth : Nat} {key : Instantiation} {id : InstanceId}
    {method? : InstanceId → Option Typed.Method} (callee : key.Known cx .all)
    (after : s'.Fixed cx F) (knows : KnowsMethods F method? s'.instances)
    (h : elaborateMethod cx elaborate depth key s = some (id, s')) :
    ∃ m, method? id = some m ∧ key.selfType ≤ m.selfType ∧ m.returnType = F.result? key ∧
      ∀ arguments : List Typed.Expr, arguments.map (·.ty) = key.arguments.map some →
        Context.Binds ⟨m.locals, []⟩ m.parameters arguments := by
  obtain ⟨k, member, same⟩ := elaborateMethod_listed checking.growing h
  have known := (after.known.instances.each _ member).1
  refine knows.callee after.final member callee known ?_
  rcases same with rfl | same
  · exact callee.beq_self
  · exact same

variable (consistent : cx.definitions.Consistent)

include consistent

theorem elaborateConstruct_checks {c : String} (typed : arguments.map (·.ty) = types.map some)
    (known : ∀ t ∈ types, t.Known .all)
    (h : elaborateConstruct cx elaborate here call c arguments types s = some (l, s')) :
    Checks cx F here.activation s arguments [l.code] l.ends s' := by
  rcases elaborateConstruct_steps h with ⟨id, instanceId, chosen, made, rfl⟩ |
    ⟨-, ⟨rfl, rfl, rfl⟩ | ⟨-, -, failed⟩⟩
  · have callee : Instantiation.Known cx .all ⟨id, s.tables.objectTy c, types⟩ :=
      ⟨fixed.known.tables.objectTy trivial, known, initializer?_callable consistent chosen⟩
    have checks := elaborateMethod_checks (a := here.activation) checking fixed leads
      arguments place.depth callee made Completions.never
    refine ((Checks.itself fixed Completions.never).trans checks).plain arguments (fun Γ => ?_)
      (by simp) ⟨rfl, rfl, rfl⟩ (fun _ _ carries => (Completions.not_carries_never carries).elim)
      fun method? Γ knows _ => ?_
    · exact congrArg (List.map (Γ, ·)) (List.append_nil _)
    · obtain ⟨m, found, self, result, binds⟩ := callee_of_listed checking callee checks.fixed knows made
      have object : s.tables.objectTy c = F.objectTy c := by rw [fixed.tables]
      rw [object] at self result
      refine ⟨m, found, self, ?_, binds arguments typed⟩
      rw [result, object, checks.fixed.tables]
      cases F.result? ⟨id, F.objectTy c, types⟩ <;> rfl
  · refine .leaf (.refl _) fixed rfl rfl (fun _ => rfl) ⟨rfl, rfl, rfl⟩ fun method? Γ _ _ => ⟨rfl, ?_⟩
    rw [fixed.tables]
    rfl
  · exact (leads.no_failure failed).elim

omit consistent in
theorem elaborateMethodCall_checks {m : MethodEntry} {receiver : Typed.Expr} {receiverType : Ty}
    (callee : (calledKey m receiverType types).Known cx .all)
    (found : cx.definitions.method? m.id = some m) (typed : receiver.ty = some receiverType)
    (argumentsTyped : arguments.map (·.ty) = types.map some)
    (h : elaborateMethodCall cx elaborate here call m receiver receiverType arguments types s =
      some (l, s')) :
    Checks cx F here.activation s (receiver :: arguments) [l.code] l.ends s' := by
  have called (e : Completions) : Checks cx F here.activation s (receiver :: arguments)
      (calledReceiver m receiver :: arguments) e s := by
    have given : Checks cx F here.activation s (receiver :: arguments) (receiver :: arguments) e s :=
      .itself fixed e
    rw [calledReceiver]
    split
    · exact given
    · exact (given.subset fun c member => List.mem_cons_of_mem _ member).cons_leaf
        (fun method? Γ _ => .intro rfl (.of_none rfl) (by rintro _ ⟨⟩)) fun _ _ => Typed.Expr.not_leaves rfl rfl
  have receiverTyped : (calledReceiver m receiver).ty =
      some (calledKey m receiverType types).selfType := by
    rw [calledReceiver, calledKey]
    split
    · exact typed
    · rfl
  rcases elaborateMethodCall_steps h with ⟨-, block, -, expanded⟩ | ⟨-, -, -, failed⟩ |
    ⟨-, id, made, rfl⟩
  · exact (called _).onto (expandCall_checks checking place fixed leads callee found receiverTyped
      argumentsTyped expanded) fun _ _ => id
  · exact (leads.no_failure failed).elim
  · have checks := elaborateMethod_checks (a := here.activation) checking fixed leads
      (receiver :: arguments) place.depth callee made Completions.never
    refine ((called Completions.never).trans checks).plain (calledReceiver m receiver :: arguments)
      (fun Γ => ?_) (by simp) ⟨rfl, rfl, rfl⟩
      (fun _ _ carries => (Completions.not_carries_never carries).elim) fun method? Γ knows _ => ?_
    · exact congrArg (List.map (Γ, ·)) (List.append_nil _)
    · obtain ⟨m', found', self, result, binds⟩ :=
        callee_of_listed checking callee checks.fixed knows made
      refine ⟨m', found', ?_, ⟨_, receiverTyped, self⟩, binds arguments argumentsTyped⟩
      rw [result, checks.fixed.tables]
      cases F.result? (calledKey m receiverType types) <;> rfl

theorem elaborateArm_checks {operands : List Typed.Expr} (known : ∀ t ∈ types, t.Known .all)
    (typed : operands.map (·.ty) = types.map some)
    (h : elaborateArm cx elaborate here call operands types s = some (l, s')) :
    Checks cx F here.activation s operands [l.code] l.ends s' := by
  rcases elaborateArm_steps h with ⟨e, -, -, failed⟩ | ⟨receiverType, argumentTypes, rfl, rest⟩
  · exact (leads.no_failure failed).elim
  · cases operands with
    | nil => cases typed
    | cons receiver arguments =>
      rw [List.map_cons, List.map_cons, List.cons.injEq] at typed
      rw [List.forall_mem_cons] at known
      simp only [List.headD_cons, List.drop_one, List.tail_cons] at rest
      rcases rest with ⟨p, callee, rfl, rfl⟩ | ⟨c, -, made⟩ | ⟨lib, name, -, rfl, rfl⟩ |
        ⟨id, m, callee, found, called⟩
      · refine (Checks.itself fixed Completions.never).plain (receiver :: arguments) (fun Γ => ?_)
          (fun _ => id) ⟨rfl, rfl, rfl⟩ (fun _ _ carries => (Completions.not_carries_never carries).elim)
          fun method? Γ _ _ => ⟨call.name, receiverType, argumentTypes, typed.1, typed.2, ?_, rfl⟩
        · exact congrArg (List.map (Γ, ·)) (List.append_nil _)
        · exact Definitions.dispatch?_primitive callee
      · have checks := elaborateConstruct_checks checking place fixed leads consistent typed.2 known.2
          made
        exact ((Checks.itself fixed _).subset fun c member => List.mem_cons_of_mem _ member).onto
          checks fun _ _ => id
      · refine ((Checks.itself fixed Completions.never).subset fun c member =>
          List.mem_cons_of_mem receiver member).plain arguments (fun Γ => ?_) (fun _ => id) ⟨rfl, rfl, rfl⟩
          (fun _ _ carries => (Completions.not_carries_never carries).elim) fun method? Γ _ _ => ?_
        · exact congrArg (List.map (Γ, ·)) (List.append_nil _)
        · intro c member
          have there : c.ty ∈ argumentTypes.map some := typed.2 ▸ List.mem_map_of_mem member
          obtain ⟨t, -, some⟩ := List.mem_map.1 there
          rw [← some]
          rfl
      · obtain ⟨itself, key⟩ :=
          calledKey_known consistent (List.forall_mem_cons.2 known) callee found
        exact elaborateMethodCall_checks checking place fixed leads key itself typed.1
          typed.2 called

/-- The arms of a call are checked where the operands are known at the types of each. -/
structure ChecksArms (cx : Setting) (F : Tables) (a : BodyContext) (temps : List SlotId)
    (s : PassState) (arms : List (Typed.Arm × Completions × List ScopeVar)) (s' : PassState) :
    Prop where
  grows : s.Grows s'
  fixed : s'.Fixed cx F
  finishes : s.Finishes (TypedMethod F) (Realizes F) s'
  typed : ∀ method? Γ, KnowsMethods F method? s'.instances → View F a s'.frame Γ →
    s.frame.Sees Γ → ∀ arm ∈ arms,
      arm.1.body.Checked (F.signatures method?) (Γ.bind (temps.zip arm.1.types))
  leaves : ∀ arm ∈ arms, ∀ target t, arm.1.body.Leaves target t → arm.2.1.Carries target t
  known : ∀ arm ∈ arms, arm.2.1.All (Ty.Known .all) ∧ arm.1.body.ty = arm.2.1.normal
  assigned : ∀ arm ∈ arms, ∀ k ∈ arm.2.2, k.Known cx .all ∧ ∃ t, F.var? k = some t

omit checking place fixed leads consistent in
theorem armOperands_typed {Γ : Context} {a : BodyContext} {f : FrameSlots} {temps : List SlotId}
    {method? : InstanceId → Option Typed.Method} (view : View F a f Γ)
    (hides : ∀ id ∈ temps, f.Hides id) : ∀ c ∈ armOperands temps types,
      c.Checked (F.signatures method?) (Γ.bind (temps.zip types)) := by
  have wider : View F a f (Γ.bind (temps.zip types)) :=
    view.bind fun b member => hides b.1 (List.of_mem_zip member).1
  intro c member
  obtain ⟨b, inside, rfl⟩ := List.mem_map.1 member
  refine .intro ⟨b.2, rfl, .inr ⟨List.mem_append_left _ inside, ?_⟩⟩ (.of_none rfl)
    (List.forall_mem_nil _)
  exact wider.hidden b (List.mem_append_left _ inside)

omit checking place fixed leads consistent in
theorem armOperands_ty {temps : List SlotId} (lengths : types.length = temps.length) :
    (armOperands temps types).map (·.ty) = types.map some := by
  calc (armOperands temps types).map (·.ty)
      = ((temps.zip types).map Prod.snd).map some := by
        rw [armOperands, List.map_map, List.map_map]
        rfl
    _ = types.map some := by rw [List.map_snd_zip (Nat.le_of_eq lengths)]

theorem elaborateArms_checks {temps : List SlotId} {before : List ScopeVar}
    {chosen : List (List Ty)} {arms : List (Typed.Arm × Completions × List ScopeVar)}
    (start : ∀ k ∈ before, k.Known cx .all ∧ ∃ t, F.var? k = some t)
    (hides : ∀ id ∈ temps, s.frame.Hides id) (known : ∀ ts ∈ chosen, ∀ t ∈ ts, t.Known .all)
    (lengths : ∀ ts ∈ chosen, ts.length = temps.length)
    (h : elaborateArms cx elaborate here call temps before chosen s = some (arms, s')) :
    ChecksArms cx F here.activation temps s arms s' ∧ arms.map (·.1.types) = chosen := by
  induction chosen generalizing s arms with
  | nil =>
    obtain ⟨rfl, rfl⟩ := elaborateArms_nil_steps h
    exact ⟨⟨.refl _, fixed, .of_same rfl rfl, fun _ _ _ _ _ => List.forall_mem_nil _, nofun, nofun,
      nofun⟩, rfl⟩
  | cons types rest ih =>
    obtain ⟨arm, s₁, others, run, runRest, rfl⟩ := elaborateArms_cons_steps h
    rw [List.forall_mem_cons] at known lengths
    have begins := fixed.withAssigned (fun k member => (start k member).1)
      fun k member => (start k member).2
    have grows := elaborateArms_grows checking.growing runRest
    have grows₁ := (grows_assigned s before).trans (elaborateArm_grows checking.growing run)
    have typed := armOperands_ty lengths.1
    have checks := elaborateArm_checks checking place begins (leads.back grows) consistent known.1
      typed run
    have knownArm := (elaborateArm_known (Vocabulary.all_covers cx) checking.knowing place
      begins.known consistent trivial (fun b _ => ⟨trivial, fun _ _ => trivial, fun _ _ => trivial⟩)
      known.1 (armOperands_known known.1) run).2
    obtain ⟨rests, types'⟩ := ih checks.fixed (fun id member => (hides id member).mono grows₁.labels)
      known.2 lengths.2 runRest
    have hides' : ∀ id ∈ temps, s'.frame.Hides id := fun id member =>
      (hides id member).mono (grows₁.trans grows).labels
    refine ⟨⟨grows₁.trans grows, rests.fixed, ?_, fun method? Γ knows view sees => ?_, ?_, ?_, ?_⟩,
      by rw [List.map_cons, types']⟩
    · have enters : s.Finishes (TypedMethod F) (Realizes F) { s with assigned := before } :=
        .of_same rfl rfl
      exact (enters.trans typedMethod_lasting checks.finishes checks.grows).trans
        typedMethod_lasting rests.finishes rests.grows
    · refine List.forall_mem_cons.2 ⟨?_, rests.typed method? Γ knows view (sees.mono grows₁.labels)⟩
      have wider : View F here.activation s'.frame (Γ.bind (temps.zip types)) :=
        view.bind fun b member => hides' b.1 (List.of_mem_zip member).1
      have seesArm : s.frame.Sees (Γ.bind (temps.zip types)) := fun b member =>
        (List.mem_append.1 member).elim (fun new => hides b.1 (List.of_mem_zip new).1) (sees b)
      exact checks.typed method? _ (knows.earlier grows.instances) (wider.back grows.labels) seesArm
        (armOperands_typed view hides') _ List.mem_cons_self
    · refine List.forall_mem_cons.2 ⟨fun target t leaves => ?_, rests.leaves⟩
      rcases checks.leaves _ List.mem_cons_self target t leaves with ⟨c, member, leaves⟩ | carried
      · -- Operands of an arm are slots, which nothing leaves.
        obtain ⟨b, -, rfl⟩ := List.mem_map.1 member
        exact (Typed.Expr.not_leaves rfl rfl leaves).elim
      · exact carried
    · exact List.forall_mem_cons.2 ⟨⟨knownArm.ends, knownArm.typed⟩, rests.known⟩
    · exact List.forall_mem_cons.2 ⟨fun k member =>
        ⟨checks.fixed.known.assigned k member, checks.fixed.entered k member⟩, rests.assigned⟩

omit checking place fixed leads consistent in
/-- The ends of a call with arms are those of all arms together. -/
theorem armEnds_covers {V : Vocabulary} (arms : List (Typed.Arm × Completions × List ScopeVar))
    (known : ∀ arm ∈ arms, arm.2.1.All (Ty.Known V)) {c e : Completions} (start : c.All (Ty.Known V))
    (whole : e = arms.foldl (fun ends arm => ends.join arm.2.1) c) :
    e.All (Ty.Known V) ∧ (e.Covers c ∧ ∀ arm ∈ arms, e.Covers arm.2.1) ∧
      (Ty.OptionLe c.normal e.normal ∧ ∀ arm ∈ arms, Ty.OptionLe arm.2.1.normal e.normal) ∧
        (e.normal.isSome → c.normal.isSome ∨ ∃ arm ∈ arms, arm.2.1.normal.isSome) := by
  have proper {a : Option Ty} (all : ∀ t ∈ a, t.Known V) : ∀ t ∈ a, t.Proper :=
    fun t inside => (all t inside).proper
  induction arms generalizing c with
  | nil =>
    subst whole
    exact ⟨start, ⟨fun _ _ => id, nofun⟩, ⟨.refl (proper start.normal), nofun⟩, .inl⟩
  | cons arm arms ih =>
    rw [List.forall_mem_cons] at known
    have joined := start.join (fun _ _ => Ty.Known.join) known.1
    obtain ⟨all, ⟨covers, each⟩, ⟨below, eachBelow⟩, falls⟩ := ih known.2 joined whole
    have normal := Completions.join_normal c arm.2.1
    have types := proper joined.normal
    rw [normal] at below falls types
    refine ⟨all, ⟨fun target t carries => covers target t (carries.join_left start known.1), ?_⟩,
      ⟨?_, ?_⟩, fun some => ?_⟩
    · exact List.forall_mem_cons.2
        ⟨fun target t carries => covers target t (carries.join_right start known.1), each⟩
    · exact (Ty.le_mergeOption_left (proper start.normal) (proper known.1.normal)).trans
        (proper start.normal) types (proper all.normal) below
    · exact List.forall_mem_cons.2 ⟨(Ty.le_mergeOption_right (proper start.normal)
        (proper known.1.normal)).trans (proper known.1.normal) types (proper all.normal) below,
        eachBelow⟩
    · rcases falls some with early | ⟨arm', member, late⟩
      · rw [Ty.mergeOption_isSome, Bool.or_eq_true] at early
        exact early.imp_right fun here => ⟨arm, List.mem_cons_self, here⟩
      · exact .inr ⟨arm', List.mem_cons_of_mem _ member, late⟩

theorem elaborateDispatch_checks {operands : List Typed.Expr} (known : ∀ t ∈ types, t.Known .all)
    (typed : operands.map (·.ty) = types.map some)
    (h : elaborateDispatch cx elaborate here call operands types s = some (l, s')) :
    Checks cx F here.activation s operands [l.code] l.ends s' := by
  rcases elaborateDispatch_steps h with ⟨-, single⟩ | ⟨-, ⟨n, -, -, failed⟩ | ⟨chosen, temps, s₁,
    arms, s₂, expanded, made, run, rfl, rfl⟩⟩
  · exact elaborateArm_checks checking place fixed leads consistent known typed single
  · exact (leads.no_failure failed).elim
  · have choices : chosen = choices (types.map Ty.members) := armsWithin_ok expanded
    have sizes := tempSlots_length made
    have lengths : ∀ ts ∈ chosen, ts.length = temps.length := by
      intro ts member
      rw [armsWithin_length expanded ts member, sizes]
    have members : ∀ ts ∈ chosen, ∀ t ∈ ts, t.Known .all := armsWithin_known known expanded
    obtain ⟨checks₁, hides⟩ := tempSlots_checks (a := here.activation) operands fixed made
      (armEnds arms)
    have leads₂ := leads.back (grows_assigned s₂ _)
    obtain ⟨checks₂, types'⟩ := elaborateArms_checks checking place checks₁.fixed leads₂ consistent
      (fun k member => ⟨checks₁.fixed.known.assigned k member, checks₁.fixed.entered k member⟩) hides
      members lengths run
    obtain ⟨-, ⟨-, covers⟩, ⟨-, below⟩, falls⟩ := armEnds_covers arms
      (fun arm member => (checks₂.known arm member).1) Completions.never_all rfl
    have after : PassState.Fixed cx F { s₂ with assigned := assignedByArms s₁.assigned arms } := by
      have each := assignedAfter_all (P := fun k => k.Known cx .all ∧ ∃ t, F.var? k = some t)
        (arms.map fun arm => (arm.2.1.fallsThrough, arm.2.2))
        (fun k member => ⟨checks₁.fixed.known.assigned k member, checks₁.fixed.entered k member⟩)
        (List.forall_mem_map.2 checks₂.assigned)
      exact checks₂.fixed.withAssigned (fun k member => (each k member).1)
        fun k member => (each k member).2
    refine ⟨(checks₁.grows.trans checks₂.grows).trans (grows_assigned _ _), after, ?_,
      fun method? Γ knows view sees given c only => ?_, fun c only target t leaves => ?_⟩
    · have finishes := checks₁.finishes.trans typedMethod_lasting checks₂.finishes checks₂.grows
      exact ⟨finishes.made, finishes.present⟩
    · cases List.mem_singleton.1 only
      obtain ⟨once, later⟩ := tempSlots_fresh made
      refine .intro ⟨?_, ⟨types, typed, ?_⟩, ?_, fun some => ?_⟩ ⟨fun id member => ?_, once,
        fun b bound again => ?_⟩ fun q member => ?_
      · have operandSizes := congrArg List.length typed
        rw [List.length_map, List.length_map] at operandSizes
        rw [sizes, operandSizes]
      · rw [List.map_map, ← choices, ← types']
        rfl
      · refine List.forall_mem_map.2 fun arm member => ?_
        rw [(checks₂.known arm member).2]
        exact below arm member
      · obtain never | ⟨arm, member, ends⟩ := falls some
        · cases never
        · exact ⟨arm.1, List.mem_map_of_mem member, by rwa [(checks₂.known arm member).2]⟩
      · exact view.hides ((hides id member).mono checks₂.grows.labels)
      · exact absurd (sees b bound).lt (Nat.not_lt.2 (later b.1 again))
      · rcases List.mem_append.1 member with scrutinee | inArm
        · obtain ⟨d, inside, rfl⟩ := List.mem_map.1 scrutinee
          exact given d inside
        · rw [List.map_map] at inArm
          obtain ⟨arm, inside, rfl⟩ := List.mem_map.1 inArm
          exact checks₂.typed method? Γ knows view (sees.mono checks₁.grows.labels) arm inside
    · cases List.mem_singleton.1 only
      rcases leaves.source with ⟨d, operand, leaves⟩ | ⟨d, landed, landing, -⟩ | ⟨d, own, -⟩
      · rcases List.mem_append.1 operand with scrutinee | inArm
        · exact .inl ⟨d, scrutinee, leaves⟩
        · rw [List.map_map] at inArm
          obtain ⟨arm, inside, rfl⟩ := List.mem_map.1 inArm
          exact .inr (covers arm inside target t (checks₂.leaves arm inside target t leaves))
      · cases landing
      · cases own

theorem elaborateCall_checks {id : NodeId} {receiver : Option Expr} {name : String}
    {nameSpan : Span} {written : List Expr} {block : Option Block}
    (h : elaborateCall cx elaborate here id receiver name nameSpan written block s =
      some (l, s')) : Checks cx F here.activation s [] [l.code] l.ends s' := by
  obtain ⟨parts, ends, s₁, run, ⟨stops, rfl, rfl⟩ | ⟨falls, sent, runSent, rfl⟩⟩ :=
    elaborateCall_steps h
  · exact stopped_checks checking place fixed leads run stops
  · have leads₁ := leads.back (elaborateDispatch_grows checking.growing runSent)
    obtain ⟨checks, knownEnds, -, ordered⟩ := elaborateParts_checks checking place fixed leads₁
      (Completions.ofNormal_all .nil) rfl run
    have types := (elaborateParts_known checking.knowing place fixed.known
      (Completions.ofNormal_all .nil) (fun _ _ => trivial) run).2.2
    have typed : ∀ c ∈ parts, c.ty.isSome := by
      rcases ordered with ⟨rfl, -⟩ | ordered
      · rintro _ ⟨⟩
      · exact ordered.typed falls
    have sentChecks : Checks cx F here.activation s [] (sentOperands here receiver parts) ends s₁ := by
      rw [sentOperands]
      split
      · exact checks.cons_leaf (fun method? Γ view => .intro ⟨_, rfl, view.reads_self⟩ (.of_none rfl)
          (by rintro _ ⟨⟩))
          fun _ _ => Typed.Expr.not_leaves rfl rfl
      · exact checks
    have sentTyped : ∀ c ∈ sentOperands here receiver parts, ∃ t, c.ty = some t ∧ t.Known .all := by
      have each : ∀ c ∈ parts, ∃ t, c.ty = some t ∧ t.Known .all := fun c member => by
        obtain ⟨t, type⟩ := Option.isSome_iff_exists.1 (typed c member)
        exact ⟨t, type, (types c member).own t type⟩
      rw [sentOperands]
      split
      · exact List.forall_mem_cons.2 ⟨⟨_, rfl, place.activation.selfType⟩, each⟩
      · exact each
    have sentTypes : (sentOperands here receiver parts).map (·.ty) =
        ((sentOperands here receiver parts).filterMap (·.ty)).map some := by
      generalize sentOperands here receiver parts = cs at sentTyped
      induction cs with
      | nil => rfl
      | cons c cs ih =>
        rw [List.forall_mem_cons] at sentTyped
        obtain ⟨t, type, -⟩ := sentTyped.1
        rw [List.map_cons, List.filterMap_cons_some type, List.map_cons, ih sentTyped.2, type]
    have known : ∀ t ∈ (sentOperands here receiver parts).filterMap (·.ty), t.Known .all := by
      intro t member
      obtain ⟨c, there, type⟩ := List.mem_filterMap.1 member
      obtain ⟨u, same, known⟩ := sentTyped c there
      exact Option.some.inj (same.symm.trans type) ▸ known
    have dispatched := elaborateDispatch_checks checking place checks.fixed leads consistent known
      sentTypes runSent
    have knownSent := (elaborateDispatch_known (Vocabulary.all_covers cx) checking.knowing place
      checks.fixed.known consistent trivial
      (fun b _ => ⟨trivial, fun _ _ => trivial, fun _ _ => trivial⟩) known
      (sentOperands_known place types) runSent).2
    exact sentChecks.onto (dispatched.covered fun _ _ carries =>
      carries.andThen_right falls knownEnds knownSent.ends)
      fun _ _ carries => carries.andThen_left knownEnds knownSent.ends

omit consistent in
theorem elaborateYield_checks {span : Span} {written : List Expr}
    (h : elaborateYield elaborate here span written s = some (l, s')) :
    Checks cx F here.activation s [] [l.code] l.ends s' := by
  obtain ⟨parts, ends, s₁, run, ⟨stops, rfl, rfl⟩ | ⟨falls, ⟨block, site, definer, parameters, s₂,
    body, origin, bound, runBody, rfl⟩ | ⟨e, -, -, failed⟩⟩⟩ := elaborateYield_steps h
  · exact stopped_checks checking place fixed leads run stops
  · have leads₂ := leads.back (elaborateBody_grows checking.growing runBody)
    have leads₁ := (leads₂.back (bindYielded_grows bound)).back (grows_assigned s₁ _)
    obtain ⟨checks, knownEnds, -, ordered⟩ := elaborateParts_checks checking place fixed leads₁
      (Completions.ofNormal_all .nil) rfl run
    have types := (elaborateParts_known checking.knowing place fixed.known
      (Completions.ofNormal_all .nil) (fun _ _ => trivial) run).2.2
    have typed : ∀ c ∈ parts, c.ty.isSome := by
      rcases ordered with ⟨rfl, -⟩ | ordered
      · nofun
      · exact ordered.typed falls
    obtain ⟨-, standing⟩ := place.activation.yielded origin
    have placeBody : Place.Known cx .all ⟨blockContext block site definer, here.depth⟩ :=
      ⟨standing, place.depth⟩
    obtain ⟨bindings, stores, missing⟩ := bindYielded_checks (a := here.activation)
      (standing.path.mono place.depth) (checks.fixed.withoutAssigned _) leads₂ typed (fun c member => (types c member).own) bound
      (ends.andThen body.ends)
    obtain ⟨checksBody, knownBody⟩ :=
      elaborateBody_checks checking placeBody bindings.fixed leads runBody
    have parts := ((checks.covered fun _ _ carries =>
      carries.andThen_left knownEnds knownBody.ends).trans (.of_step (grows_assigned s₁ _)
        (checks.fixed.withoutAssigned _) rfl rfl _)).trans (bindings.trans ((checksBody.covered
          fun _ _ carries => carries.andThen_right falls knownEnds knownBody.ends).moved
            fun Γ view => view.yielded origin))
    refine parts.plain _ (fun Γ => rfl) (by simp [Typed.Node.parts, Typed.Node.operands,
      Typed.Node.landing?, Elaborated.ofNode]) ⟨rfl, rfl, rfl⟩ (fun _ _ => id) fun method? Γ _ view => ?_
    refine ⟨⟨typed, fun b member => ?_, fun id member => ?_⟩, ?_⟩
    · obtain ⟨t, type, takes⟩ := stores b member
      rw [type]
      exact view.stores (takes.mono checksBody.grows.labels) checksBody.fixed.final
    · exact view.stores ((missing id member).mono checksBody.grows.labels) checksBody.fixed.final
    · exact (Completions.andThen_normal body.ends falls).trans knownBody.typed.symm
  · exact (leads.no_failure failed).elim

end Calls

end Constructs

/-- Each construct keeps the types, given that its parts do. -/
theorem elaborateForm_checking {cx : Setting} {F : Tables} {elaborate : Elaborate}
    (consistent : cx.definitions.Consistent) (checking : elaborate.Checking cx F) :
    Elaborate.Checking cx F (elaborateForm cx elaborate) where
  growing := elaborateForm_grows checking.growing
  knowing := elaborateForm_knowing (Vocabulary.all_covers cx) consistent checking.knowing
  literals here e s l s' v form h := by
    simp only [elaborateForm, form] at h
    obtain ⟨rfl, rfl⟩ := pure_eq_some.1 h
    rfl
  checks here e s l s' place fixed h leads := by
    simp only [elaborateForm] at h
    cases form : e.form with
    | literal _ | defMethod _ | defClass _ | defLib _ =>
      simp only [form] at h
      obtain ⟨rfl, rfl⟩ := pure_eq_some.1 h
      exact .leaf (.refl _) fixed rfl rfl (fun _ => rfl) ⟨rfl, rfl, rfl⟩ fun _ _ _ _ => rfl
    | self =>
      simp only [form] at h
      obtain ⟨rfl, rfl⟩ := pure_eq_some.1 h
      exact .leaf (.refl _) fixed rfl rfl (fun _ => rfl) ⟨rfl, rfl, rfl⟩
        fun _ _ _ view => ⟨_, rfl, view.reads_self⟩
    | read v =>
      simp only [form] at h
      exact elaborateRead_checks place fixed leads form h
    | assign v span value =>
      simp only [form] at h
      exact elaborateAssignment_checks checking place fixed leads form h
    | call receiver name nameSpan arguments block =>
      simp only [form] at h
      exact elaborateCall_checks checking place fixed leads consistent h
    | yield arguments =>
      simp only [form] at h
      exact elaborateYield_checks checking place fixed leads h
    | «return» value | «break» value =>
      simp only [form] at h
      exact elaborateExit_checks checking place fixed leads h
    | conditional kind condition consequent alternative =>
      simp only [form] at h
      exact elaborateConditional_checks checking place fixed leads h
    | «while» condition body =>
      simp only [form] at h
      exact elaborateWhile_checks checking place fixed leads h
    | logical connective left right =>
      simp only [form] at h
      exact elaborateLogical_checks checking place fixed leads h
    | not operand =>
      simp only [form] at h
      exact elaborateNot_checks checking place fixed leads h

/-- Every elaboration of the last pass keeps the types. -/
theorem elaborateExpr_checking {cx : Setting} (F : Tables) (consistent : cx.definitions.Consistent)
    (fuel : Nat) : Elaborate.Checking cx F (elaborateExpr cx fuel) := by
  induction fuel with
  | zero =>
    exact ⟨nofun, nofun, nofun, nofun⟩
  | succ fuel ih => exact elaborateForm_checking consistent ih

end TypedBlocks.Inference

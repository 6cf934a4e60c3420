import TypedBlocks.Proofs.HaltingPasses
import TypedBlocks.Proofs.MoreFuel
import TypedBlocks.Proofs.TableSizes

/-!
# Inference comes to an end

No pass over a program goes on for ever, and passes are not repeated for ever: each one that is not
the last makes the layouts larger, or keeps them and makes the other tables larger, and over the
finite vocabulary of the program neither can go on without end.
-/
namespace TypedBlocks.Inference

open Pass

section Unchanged

variable {cx : Setting} {V : Vocabulary} {ts : Tables}

theorem sameEntries_self {α : Type} [BEq α] {K : α → Prop} {es : List (α × Ty)}
    (entries : Entries K (Ty.Known V) es) (self : ∀ k, K k → (k == k) = true) :
    sameEntries es es = true := by
  obtain ⟨each, -⟩ := entries
  induction es with
  | nil => rfl
  | cons e es ih =>
    rw [List.forall_mem_cons] at each
    obtain ⟨⟨key, type⟩, rest⟩ := each
    rw [sameEntries, self e.1 key, type.proper.refl, ih rest]
    rfl

theorem sameResults_self {es : List (Instantiation × Option Ty)}
    (entries : Entries (Instantiation.Known cx V) (fun a => ∀ t ∈ a, t.Known V) es) :
    Tables.sameResults es es = true := by
  obtain ⟨each, -⟩ := entries
  induction es with
  | nil => rfl
  | cons e es ih =>
    rw [List.forall_mem_cons] at each
    obtain ⟨⟨key, result⟩, rest⟩ := each
    have same : (e.2 == e.2) = true := by
      cases found : e.2 with
      | none => rfl
      | some t => exact (result t found).proper.refl
    rw [Tables.sameResults, Instantiation.Known.beq_self key, same, ih rest]
    rfl

namespace Tables.Known

variable (known : ts.Known cx V)

include known

theorem sameLayouts_of_eq {us : Tables} (same : us.layouts = ts.layouts) :
    us.sameLayouts ts = true := by
  have self : ∀ e ∈ ts.layouts, (Ty.object e.1 e.2 == Ty.object e.1 e.2) = true := fun e member =>
    (Ty.VarsKnown.proper (known.layouts.each e member).2).refl
  rw [Tables.sameLayouts, same, beq_self_eq_true, Bool.true_and, List.all_eq_true,
    List.zip_eq_zipWith, List.zipWith_self]
  intro pair member
  obtain ⟨e, there, rfl⟩ := List.mem_map.1 member
  exact self e there

theorem same_self : ts.same ts = true := by
  have vars := sameEntries_self known.vars fun k known => ScopeVar.Known.beq_self known.1
  have globals := sameEntries_self known.globals fun _ _ => BEq.rfl
  have constants := sameEntries_self known.constants fun _ _ => BEq.rfl
  rw [Tables.same, known.sameLayouts_of_eq rfl, vars, sameResults_self known.methods, globals,
    constants]
  rfl

end Tables.Known

end Unchanged

section Room

/-- How much larger tables can become before they are as large as the bounds: the layouts weigh more
than all else together, for the rest is inferred anew whenever they change. -/
def Tables.room (layouts rest : Nat) (ts : Tables) : Nat :=
  (layouts - ts.layoutSize) * (rest + 1) + (rest - ts.restSize)

variable {cx : Setting} {V : Vocabulary} {ts us : Tables} {layouts rest : Nat}
  (known : ts.Known cx V) (grows : ts.Grows us)

include known grows

/-- Passes that change the layouts leave less room, although they lose all other tables. -/
theorem room_layoutsOnly (bound : us.layoutSize ≤ layouts) (changed : us.sameLayouts ts = false) :
    us.layoutsOnly.room layouts rest < ts.room layouts rest := by
  have larger : ts.layoutSize < us.layoutSize := by
    by_contra small
    have same := grows.layouts_eq_of_size known.reduced (Nat.le_of_not_lt small)
    rw [known.sameLayouts_of_eq same] at changed
    cases changed
  have kept : us.layoutsOnly.layoutSize = us.layoutSize := rfl
  rw [Tables.room, Tables.room, kept]
  exact digit_lt_digit (by omega) (by omega)

/-- Passes that change other tables and no layouts leave less room. -/
theorem room_grown (bound : us.restSize ≤ rest) (same : us.sameLayouts ts = true)
    (changed : us.same ts = false) : us.room layouts rest < ts.room layouts rest := by
  have kept := grows.layouts_eq known.reduced same
  have larger : ts.restSize < us.restSize := by
    by_contra small
    obtain rfl := grows.eq_of_size known.reduced kept (Nat.le_of_not_lt small)
    rw [known.same_self] at changed
    cases changed
  have sizes : us.layoutSize = ts.layoutSize := by rw [Tables.layoutSize, kept, Tables.layoutSize]
  rw [Tables.room, Tables.room, sizes]
  omega

end Room

section Passes

/-- The same program, with another number of passes allowed. -/
def Setting.allowing (cx : Setting) (passes : Nat) : Setting :=
  { cx with limits := { cx.limits with maxPasses := passes } }

variable (cx : Setting) (passes : Nat) (elaborate : Elaborate)

theorem elaborateArms_allowing (here : Place) (call : CallSyntax) (temps : List Typed.SlotId)
    (before : List ScopeVar) (choices : List (List Ty)) :
    elaborateArms (cx.allowing passes) elaborate here call temps before choices =
      elaborateArms cx elaborate here call temps before choices := by
  induction choices with
  | nil => rfl
  | cons types rest ih =>
    rw [elaborateArms, elaborateArms, ih]
    rfl

theorem elaborateDispatch_allowing :
    elaborateDispatch (cx.allowing passes) elaborate = elaborateDispatch cx elaborate := by
  funext here call operands types
  simp only [elaborateDispatch, elaborateArms_allowing]
  rfl

theorem elaborateForm_allowing :
    elaborateForm (cx.allowing passes) elaborate = elaborateForm cx elaborate := by
  funext here e
  simp only [elaborateForm, elaborateCall, elaborateDispatch_allowing]
  rfl

theorem elaborateExpr_allowing (fuel : Nat) :
    elaborateExpr (cx.allowing passes) fuel = elaborateExpr cx fuel := by
  induction fuel with
  | zero => rfl
  | succ fuel ih =>
    funext here e
    rw [elaborateExpr, elaborateExpr, ih, elaborateForm_allowing]

/-- A pass does not depend on how many may follow it. -/
theorem elaborateProgram_allowing (fuel : Nat) (statements : List Expr) :
    elaborateProgram (cx.allowing passes) fuel statements = elaborateProgram cx fuel statements := by
  simp only [elaborateProgram, elaborateExpr_allowing]
  rfl

end Passes

section Outcomes

/-- Inference has come to a program, or to errors other than the lack of a fixed point. -/
def Settled : Except Failure Typed.Program → Prop
  | .ok _ => True
  | .error (.errors es) => ∀ passes, .noFixedPoint passes ∉ es
  | .error .outOfFuel => False

theorem distinctErrors_subset (es : List StaticError) : distinctErrors es ⊆ es := by
  suffices ∀ seen, es.foldl (fun seen e => if seen.contains e then seen else seen ++ [e]) seen ⊆
      seen ++ es from this []
  induction es with
  | nil => simp
  | cons e es ih =>
    intro seen f member
    have inside := ih _ member
    dsimp only at inside
    split at inside <;> grind

variable {cx : Setting} {V : Vocabulary} {B : Bounds} {statements : List Expr} {ts : Tables}
  {p : Typed.Program} {s : PassState}

/-- What the last pass makes settles the inference. -/
theorem settled_last (known : s.Known cx V) :
    Settled (if s.errors.isEmpty then .ok p else .error (.errors (distinctErrors s.errors))) := by
  split
  · trivial
  · intro passes member
    have placed := known.errors _ (distinctErrors_subset _ member)
    cases placed

/-- A pass that has a result has the same with more fuel. -/
theorem elaborateProgram_more {fuel fuel' : Nat} (more : fuel ≤ fuel')
    (run : elaborateProgram cx fuel statements (PassState.start ts) = some (p, s)) :
    elaborateProgram cx fuel' statements (PassState.start ts) = some (p, s) := by
  have below : Pass.Below (elaborateProgram cx fuel statements)
      (elaborateProgram cx fuel' statements) :=
    below_step fun frame => below_step fun self =>
      below_bind (elaborateBody_below (elaborateExpr_below cx more) statements) fun _ => below_refl _
  exact below _ _ run

/-- Repeated passes settle, whatever the fuel and the number of passes are, if both are enough. -/
theorem iterate_settles (holds : B.Hold cx V) (covers : V.Covers cx)
    (consistent : cx.definitions.Consistent) (written : ∀ e ∈ statements, V.exprs e)
    {layouts rest : Nat} (boundLayouts : ∀ ts : Tables, ts.Known cx V → ts.layoutSize ≤ layouts)
    (boundRest : ∀ ts : Tables, ts.Known cx V → ts.restSize ≤ rest) (known : ts.Known cx V) :
    ∃ outcome, Settled outcome ∧ ∀ fuel passes left, B.fuel ≤ fuel →
      ts.room layouts rest < left →
        iterate (cx.allowing passes) fuel statements left ts = outcome := by
  induction room : ts.room layouts rest using Nat.strong_induction_on generalizing ts with
  | _ n ih =>
    subst room
    obtain ⟨⟨p, s⟩, run⟩ := pass_halts holds covers consistent written known (Nat.le_refl B.fuel)
    obtain ⟨after, grows⟩ := pass_known covers consistent written known run
    have unfolded (fuel passes left : Nat) (enough : B.fuel ≤ fuel) :
        iterate (cx.allowing passes) fuel statements (left + 1) ts =
          if !s.tables.sameLayouts ts then
            iterate (cx.allowing passes) fuel statements left s.tables.layoutsOnly
          else if s.tables.same ts then
            if s.errors.isEmpty then .ok p else .error (.errors (distinctErrors s.errors))
          else iterate (cx.allowing passes) fuel statements left s.tables := by
      have again : (elaborateProgram (cx.allowing passes) fuel statements).run
          (PassState.start ts) = some (p, s) := by
        rw [elaborateProgram_allowing]
        exact elaborateProgram_more enough run
      rw [iterate, again]
    have afterKnown := after.tables
    cases layoutsSame : s.tables.sameLayouts ts with
    | false =>
      have less : s.tables.layoutsOnly.room layouts rest < ts.room layouts rest :=
        room_layoutsOnly known grows (boundLayouts _ afterKnown) layoutsSame
      obtain ⟨outcome, settled, reached⟩ := ih _ less afterKnown.layoutsOnly rfl
      refine ⟨outcome, settled, fun fuel passes left enough more => ?_⟩
      obtain ⟨left, rfl⟩ := Nat.exists_eq_add_one_of_ne_zero (Nat.ne_zero_of_lt more)
      rw [unfolded fuel passes left enough, layoutsSame]
      exact reached fuel passes left enough (by omega)
    | true =>
      cases same : s.tables.same ts with
      | false =>
        have less : s.tables.room layouts rest < ts.room layouts rest :=
          room_grown known grows (boundRest _ afterKnown) layoutsSame same
        obtain ⟨outcome, settled, reached⟩ := ih _ less afterKnown rfl
        refine ⟨outcome, settled, fun fuel passes left enough more => ?_⟩
        obtain ⟨left, rfl⟩ := Nat.exists_eq_add_one_of_ne_zero (Nat.ne_zero_of_lt more)
        rw [unfolded fuel passes left enough, layoutsSame, same]
        exact reached fuel passes left enough (by omega)
      | true =>
        refine ⟨_, settled_last (p := p) after, fun fuel passes left enough more => ?_⟩
        obtain ⟨left, rfl⟩ := Nat.exists_eq_add_one_of_ne_zero (Nat.ne_zero_of_lt more)
        rw [unfolded fuel passes left enough, layoutsSame, same]
        rfl

end Outcomes

section Programs

variable {cx : Setting} {bodies : List (List Expr)}

/-- Every program keeps a pass within some bounds. -/
theorem exists_bounds (cx : Setting) (statements : List Expr) :
    ∃ B : Bounds, B.Hold cx (Vocabulary.ofProgram cx.definitions statements) := by
  have few := Vocabulary.ofProgram_few cx.definitions statements
  obtain ⟨size, below⟩ := Vocabulary.exprs_bounded cx.definitions statements
  have methods (s : PassState)
      (known : s.Known cx (Vocabulary.ofProgram cx.definitions statements)) :=
    known.instances.length_le (finite_instantiations cx few) fun k l left right =>
      (Instantiation.beq_iff left.proper right.proper).2
  exact ⟨⟨_, cx.limits.maxInlineDepth, size⟩, methods, rfl, below⟩

/-- Tables that a pass of the inference starts from. -/
inductive Reached (cx : Setting) (fuel : Nat) (statements : List Expr) : Tables → Prop
  | first : Reached cx fuel statements .empty
  | anew {ts : Tables} {p : Typed.Program} {s : PassState} (earlier : Reached cx fuel statements ts)
      (run : elaborateProgram cx fuel statements (PassState.start ts) = some (p, s))
      (changed : s.tables.sameLayouts ts = false) : Reached cx fuel statements s.tables.layoutsOnly
  | again {ts : Tables} {p : Typed.Program} {s : PassState} (earlier : Reached cx fuel statements ts)
      (run : elaborateProgram cx fuel statements (PassState.start ts) = some (p, s))
      (same : s.tables.sameLayouts ts = true) : Reached cx fuel statements s.tables

theorem Reached.known {V : Vocabulary} {fuel : Nat} {statements : List Expr} {ts : Tables}
    (reached : Reached cx fuel statements ts) (covers : V.Covers cx)
    (consistent : cx.definitions.Consistent) (written : ∀ e ∈ statements, V.exprs e) :
    ts.Known cx V := by
  induction reached with
  | first => exact empty_known
  | anew _ run _ ih => exact (pass_known covers consistent written ih run).1.tables.layoutsOnly
  | again _ run _ ih => exact (pass_known covers consistent written ih run).1.tables

/-- With enough fuel every pass comes to its end, and in it each table only grows: entries are added
and types are joined to those that are there. There is an outcome other than the lack of a fixed
point that the inference has whenever enough passes are allowed. -/
theorem inference_converges (collected : Definitions.ofBodies bodies = .ok cx.definitions) :
    ∃ enough most outcome, Settled outcome ∧ ∀ fuel ≥ enough,
      (∀ ts, Reached cx fuel bodies.flatten ts → ∃ p s,
        elaborateProgram cx fuel bodies.flatten (PassState.start ts) = some (p, s) ∧
          ts.Grows s.tables) ∧
      (∀ here e s l s', elaborateExpr cx fuel here e s = some (l, s') → s.tables.Grows s'.tables) ∧
      ∀ passes ≥ most, infer (cx.allowing passes) fuel bodies = outcome := by
  have consistent := Definitions.ofBodies_consistent collected
  have covers := Vocabulary.ofProgram_covers cx bodies.flatten
  have few := Vocabulary.ofProgram_few cx.definitions bodies.flatten
  have written :
      ∀ e ∈ bodies.flatten, (Vocabulary.ofProgram cx.definitions bodies.flatten).exprs e :=
    fun e member => ⟨e, List.mem_append_left _ member, .self⟩
  obtain ⟨B, holds⟩ := exists_bounds cx bodies.flatten
  obtain ⟨layouts, boundLayouts⟩ := layoutSize_bounded cx few
  obtain ⟨rest, boundRest⟩ := restSize_bounded cx few
  obtain ⟨outcome, settled, reached⟩ := iterate_settles holds covers consistent written boundLayouts
    boundRest empty_known
  refine ⟨B.fuel, Tables.empty.room layouts rest + 1, outcome, settled, fun fuel enough =>
    ⟨fun ts start => ?_, fun here e s l s' run => ?_, fun passes most => ?_⟩⟩
  · have known := start.known covers consistent written
    obtain ⟨⟨p, s⟩, run⟩ := pass_halts holds covers consistent written known enough
    exact ⟨p, s, run, (pass_known covers consistent written known run).2⟩
  · exact (elaborateExpr_grows cx fuel here e s l s' run).tables
  · exact reached fuel passes passes enough most

end Programs

/-- A recursion in which every call has a receiver and an argument that the layout has changed. -/
def linkingText : String :=
  "class Link\n  def join(other)\n    @next = other\n    other.join(self)\n  end\nend\n" ++
    "Link.new.join(Link.new)\n"

theorem linkingText_converges : ∃ ms next definitions,
    Module.readAll ⟨0⟩ [linkingText] = .ok (ms, next) ∧
      Definitions.ofBodies (ms.map (·.body)) = .ok definitions ∧
      ∀ exits captures limits, let cx : Setting := ⟨definitions, exits, captures, limits⟩
        ∃ enough most outcome, Settled outcome ∧ ∀ fuel ≥ enough,
          (∀ ts, Reached cx fuel (ms.map (·.body)).flatten ts → ∃ p s,
            elaborateProgram cx fuel (ms.map (·.body)).flatten (PassState.start ts) = some (p, s) ∧
              ts.Grows s.tables) ∧
          (∀ here e s l s', elaborateExpr cx fuel here e s = some (l, s') →
            s.tables.Grows s'.tables) ∧
          ∀ passes ≥ most, infer (cx.allowing passes) fuel (ms.map (·.body)) = outcome := by
  obtain ⟨⟨ms, next⟩, read, sound⟩ := exists_value (Module.readAll ⟨0⟩ [linkingText])
    (fun r => (Definitions.ofBodies (r.1.map (·.body))).isOk) (by decide +kernel)
  obtain ⟨definitions, collected⟩ := exists_ok _ sound
  refine ⟨ms, next, definitions, read, collected, ?_⟩
  intro exits captures limits cx
  exact inference_converges collected

end TypedBlocks.Inference

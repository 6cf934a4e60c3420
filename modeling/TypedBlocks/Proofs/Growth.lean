import TypedBlocks.Proofs.ElaborationSteps
import TypedBlocks.Proofs.TableGrowth

/-!
# What a pass never takes back

Errors, methods and slots only come in behind those that are there, counters only rise, tables only
grow, and a method that was there before, finished or not, is left alone: an elaboration only writes
methods that it has admitted itself.
-/
namespace TypedBlocks.Inference

open Typed (InstanceId SlotId Slot)
open Pass

/-- What stays as it is of the slots of a frame: numbers, names and variables. -/
def FrameSlots.labels (f : FrameSlots) : List (SlotId × String × Option ScopeVar) :=
  f.slots.map fun (slot, key) => (slot.id, slot.name, key)

/-- The second state holds all that the first one holds. -/
structure PassState.Grows (s s' : PassState) : Prop where
  tables : s.tables.Grows s'.tables
  errors : s.errors <+: s'.errors
  instances : s.instances <+: s'.instances
  methods : ∀ i < s.methods.size, s'.methods[i]? = s.methods[i]?
  size : s.methods.size ≤ s'.methods.size
  frames : s.nextFrame ≤ s'.nextFrame
  sites : s.nextSite ≤ s'.nextSite
  loops : s.nextLoop ≤ s'.nextLoop
  labels : s.frame.labels <+: s'.frame.labels

namespace PassState.Grows

theorem refl (s : PassState) : s.Grows s :=
  ⟨.refl _, List.prefix_refl _, List.prefix_refl _, fun _ _ => rfl, Nat.le_refl _, Nat.le_refl _,
    Nat.le_refl _, Nat.le_refl _, List.prefix_refl _⟩

theorem trans {s s₁ s₂ : PassState} (first : s.Grows s₁) (second : s₁.Grows s₂) : s.Grows s₂ where
  tables := first.tables.trans second.tables
  errors := first.errors.trans second.errors
  instances := first.instances.trans second.instances
  methods i bound := by
    rw [second.methods i (Nat.lt_of_lt_of_le bound first.size), first.methods i bound]
  size := Nat.le_trans first.size second.size
  frames := Nat.le_trans first.frames second.frames
  sites := Nat.le_trans first.sites second.sites
  loops := Nat.le_trans first.loops second.loops
  labels := first.labels.trans second.labels

/-- Steps on assigned variables take nothing back, nor does a counter that rises. -/
theorem of_parts {s s' : PassState} (tables : s.tables.Grows s'.tables)
    (errors : s.errors <+: s'.errors)
    (instances : s'.instances = s.instances) (methods : s'.methods = s.methods)
    (frames : s.nextFrame ≤ s'.nextFrame) (sites : s.nextSite ≤ s'.nextSite)
    (loops : s.nextLoop ≤ s'.nextLoop)
    (labels : s.frame.labels <+: s'.frame.labels) : s.Grows s' where
  tables := tables
  errors := errors
  instances := instances ▸ List.prefix_refl _
  methods i _ := by rw [methods]
  size := methods ▸ Nat.le_refl _
  frames := frames
  sites := sites
  loops := loops
  labels := labels

theorem slots {s s' : PassState} (grows : s.Grows s') :
    s.frame.slots.length ≤ s'.frame.slots.length := by
  simpa [FrameSlots.labels] using grows.labels.length_le

theorem no_errors {s s' : PassState} (grows : s.Grows s') (sound : s'.errors = []) :
    s.errors = [] := List.prefix_nil.1 (sound ▸ grows.errors)

end PassState.Grows

/-- A run without errors has not noted one. -/
theorem no_failure {s s' : PassState} (sound : s'.errors = []) {e : StaticError}
    (same : s' = { s with errors := s.errors ++ [e] }) : False := by
  rw [same] at sound
  simp at sound

section Frames

variable (f : FrameSlots)

theorem slotFor_labels (key : ScopeVar) : f.labels <+: (f.slotFor key).2.labels := by
  rw [FrameSlots.slotFor]
  cases f.find? key <;> simp [FrameSlots.labels]

theorem update_length (id : SlotId) (change : Slot → Slot) :
    (f.update id change).slots.length = f.slots.length := by
  simp [FrameSlots.update]

theorem update_labels (id : SlotId) {change : Slot → Slot}
    (keeps : ∀ slot, (change slot).id = slot.id ∧ (change slot).name = slot.name) :
    f.labels <+: (f.update id change).labels := by
  suffices f.labels = (f.update id change).labels from this ▸ List.prefix_refl _
  simp only [FrameSlots.labels, FrameSlots.update, List.map_map]
  refine List.map_congr_left fun entry _ => ?_
  simp only [Function.comp_apply]
  split
  · rw [← (keeps _).1, ← (keeps _).2]
  · rfl

theorem selfBound_labels (path : ScopeChain) (t : Ty) :
    f.labels <+: (selfBound f path t).2.labels :=
  (slotFor_labels f _).trans (update_labels _ _ fun _ => ⟨rfl, rfl⟩)

theorem lookedUp_labels (key : ScopeVar) (captured : Bool) :
    f.labels <+: (lookedUp f key captured).labels := by
  rw [lookedUp]
  split
  · exact (slotFor_labels f key).trans (update_labels _ _ fun _ => ⟨rfl, rfl⟩)
  · exact slotFor_labels f key

end Frames

/-- An elaboration whose runs only let the state grow. -/
def Elaborate.Growing (elaborate : Elaborate) : Prop :=
  ∀ here e s l s', elaborate here e s = some (l, s') → s.Grows s'

section Steps

variable {cx : Setting} {elaborate : Elaborate} {here : Place} {s s' : PassState} {l : Elaborated}

theorem grows_with_error (s : PassState) (e : StaticError) :
    s.Grows { s with errors := s.errors ++ [e] } :=
  .of_parts (.refl _) (List.prefix_append _ _) rfl rfl (Nat.le_refl _) (Nat.le_refl _)
    (Nat.le_refl _) (List.prefix_refl _)

theorem grows_assigned (s : PassState) (keys : List ScopeVar) :
    s.Grows { s with assigned := keys } :=
  .of_parts (.refl _) (List.prefix_refl _) rfl rfl (Nat.le_refl _) (Nat.le_refl _) (Nat.le_refl _)
    (List.prefix_refl _)

theorem grows_tables (s : PassState) {ts : Tables} (grown : s.tables.Grows ts) :
    s.Grows { s with tables := ts } :=
  .of_parts grown (List.prefix_refl _) rfl rfl (Nat.le_refl _) (Nat.le_refl _) (Nat.le_refl _)
    (List.prefix_refl _)

theorem bindVar_grows {path : ScopeChain} {name : String} {t : Ty} {id : SlotId}
    (h : bindVar path name t s = some (id, s')) : s.Grows s' := by
  rw [bindVar_run] at h
  cases h
  exact .of_parts (.extendVar _ _ _) (List.prefix_refl _) rfl rfl (Nat.le_refl _) (Nat.le_refl _)
    (Nat.le_refl _) (slotFor_labels _ _)

theorem bindVars_grows {path : ScopeChain} {ps : List Parameter} {ts : List Ty}
    {ids : List SlotId} (h : bindVars path ps ts s = some (ids, s')) : s.Grows s' := by
  induction ps generalizing ts ids s with
  | nil =>
    simp only [bindVars, pure_eq_some] at h
    exact h.2 ▸ .refl s
  | cons p ps ih =>
    cases ts with
    | nil =>
      simp only [bindVars, pure_eq_some] at h
      exact h.2 ▸ .refl s
    | cons t ts =>
      simp only [bindVars] at h
      obtain ⟨id, s₁, bound, h⟩ := bind_eq_some.1 h
      obtain ⟨rest, s₂, boundRest, h⟩ := bind_eq_some.1 h
      obtain ⟨-, rfl⟩ := pure_eq_some.1 h
      exact (bindVar_grows bound).trans (ih boundRest)

theorem bindYielded_grows {path : ScopeChain} {ps : List BlockParameter}
    {parts : List Typed.Expr} {ids : List SlotId}
    (h : bindYielded path ps parts s = some (ids, s')) : s.Grows s' := by
  induction ps generalizing parts ids s with
  | nil =>
    simp only [bindYielded, pure_eq_some] at h
    exact h.2 ▸ .refl s
  | cons p ps ih =>
    simp only [bindYielded] at h
    obtain ⟨id, s₁, bound, h⟩ := bind_eq_some.1 h
    obtain ⟨rest, s₂, boundRest, h⟩ := bind_eq_some.1 h
    obtain ⟨-, rfl⟩ := pure_eq_some.1 h
    exact (bindVar_grows bound).trans (ih boundRest)

theorem tempSlots_grows {ts : List Ty} {ids : List SlotId}
    (h : tempSlots ts s = some (ids, s')) : s.Grows s' := by
  induction ts generalizing ids s with
  | nil =>
    simp only [tempSlots, pure_eq_some] at h
    exact h.2 ▸ .refl s
  | cons t ts ih =>
    simp only [tempSlots] at h
    rw [bind_run (tempSlot_run _)] at h
    obtain ⟨rest, s₂, made, h⟩ := bind_eq_some.1 h
    obtain ⟨-, rfl⟩ := pure_eq_some.1 h
    have step : s.Grows { s with frame := (s.frame.tempSlot t).2 } :=
      .of_parts (.refl _) (List.prefix_refl _) rfl rfl (Nat.le_refl _) (Nat.le_refl _)
        (Nat.le_refl _) (by simp [FrameSlots.labels, FrameSlots.tempSlot])
    exact step.trans (ih made)

theorem readLocal_grows (a : BodyContext) (name : String) : s.Grows (readLocal cx a name s) := by
  refine .of_parts ?_ (List.prefix_refl _) rfl rfl (Nat.le_refl _) (Nat.le_refl _) (Nat.le_refl _)
    (lookedUp_labels _ _ _)
  simp only [readLocal]
  split
  · exact .refl _
  · exact .extendVar _ _ _

/-- A loop takes a number. -/
theorem grows_loop (s : PassState) : s.Grows { s with nextLoop := s.nextLoop + 1 } :=
  .of_parts (.refl _) (List.prefix_refl _) rfl rfl (Nat.le_refl _) (Nat.le_refl _) (Nat.le_succ _)
    (List.prefix_refl _)

theorem enteredExpansion_grows (here : Place) (call : CallSyntax) (key : Instantiation)
    (s : PassState) : s.Grows (enteredExpansion here call key s) :=
  .of_parts (.refl _) (List.prefix_refl _) rfl rfl (Nat.le_succ _) (Nat.le_succ _) (Nat.le_refl _)
    (selfBound_labels _ _ _)

theorem assignLocal_grows (a : BodyContext) (name : String) (t : Ty) :
    s.Grows (assignLocal cx a name t s) :=
  .of_parts (.extendVar _ _ _) (List.prefix_refl _) rfl rfl (Nat.le_refl _) (Nat.le_refl _)
    (Nat.le_refl _) (lookedUp_labels _ _ _)

variable (growing : elaborate.Growing)

include growing

theorem elaborateParts_grows {ends ends' : Completions} {es : List Expr}
    {codes : List Typed.Expr}
    (h : elaborateParts elaborate here ends es s = some ((codes, ends'), s')) : s.Grows s' := by
  induction es generalizing ends codes s with
  | nil =>
    obtain ⟨-, -, rfl⟩ := elaborateParts_nil_steps h
    exact .refl _
  | cons e es ih =>
    obtain ⟨first, s₁, run, ⟨-, rest, runRest, -⟩ | ⟨-, -, -, rfl⟩⟩ :=
      elaborateParts_cons_steps h
    · exact (growing _ _ _ _ _ run).trans (ih runRest)
    · exact growing _ _ _ _ _ run

theorem elaborateBody_grows {body : List Expr}
    (h : elaborateBody elaborate here body s = some (l, s')) : s.Grows s' := by
  rcases elaborateBody_steps h with ⟨-, -, rfl⟩ | ⟨-, parts, ends, run, -⟩
  · exact .refl _
  · exact elaborateParts_grows growing run

theorem elaborateMethod_grows {depth : Nat} {key : Instantiation} {id : InstanceId}
    (h : elaborateMethod cx elaborate depth key s = some (id, s')) : s.Grows s' := by
  have admits : s.Grows (admitted key s) :=
    { PassState.Grows.refl s with
      instances := List.prefix_append _ _
      methods := fun i bound => Array.getElem?_push_lt bound ▸ (Array.getElem?_eq_getElem bound).symm
      size := by simp [admitted] }
  rcases elaborateMethod_steps h with ⟨-, rfl⟩ | ⟨-, -, ⟨-, rfl⟩ | ⟨m, parameters, s₁, body, s₂,
    -, bound, run, rfl⟩⟩
  · exact .refl _
  · exact admits
  · have inner := (bindVars_grows bound).trans (elaborateBody_grows growing run)
    have inside : s.methods.size < s₂.methods.size :=
      Nat.lt_of_lt_of_le (by simp [enteredMethod, admitted]) inner.size
    exact
      { tables := inner.tables.trans (.extendResult _ _ _)
        errors := inner.errors
        instances := admits.instances.trans inner.instances
        methods := fun i low => by
          have other : s.methods.size ≠ i := by omega
          simp only [leftMethod, Array.getElem?_setIfInBounds_ne other]
          rw [inner.methods i (Nat.lt_of_lt_of_le low admits.size)]
          exact admits.methods i low
        size := by
          simp only [leftMethod, Array.size_setIfInBounds]
          omega
        frames := Nat.le_trans (Nat.le_succ _) inner.frames
        sites := inner.sites
        loops := inner.loops
        labels := List.prefix_refl _ }

theorem expandCall_grows {call : CallSyntax} {m : MethodEntry} {key : Instantiation}
    {block : Block} {receiver : Typed.Expr} {arguments : List Typed.Expr}
    (h : expandCall cx elaborate here call m key block receiver arguments s = some (l, s')) :
    s.Grows s' := by
  rcases expandCall_steps h with ⟨-, -, rfl⟩ | ⟨-, parameters, s₁, body, s₂, bound, run, rfl, -⟩
  · exact grows_with_error s _
  · have entered := enteredExpansion_grows here call key s
    exact ((entered.trans (bindVars_grows bound)).trans (elaborateBody_grows growing run)).trans
      (grows_assigned _ _)

theorem elaborateConstruct_grows {call : CallSyntax} {c : String} {arguments : List Typed.Expr}
    {types : List Ty}
    (h : elaborateConstruct cx elaborate here call c arguments types s = some (l, s')) :
    s.Grows s' := by
  rcases elaborateConstruct_steps h with ⟨id, instanceId, -, made, -⟩ |
    ⟨-, ⟨-, rfl, -⟩ | ⟨-, -, rfl⟩⟩
  · exact elaborateMethod_grows growing made
  · exact .refl _
  · exact grows_with_error s _

theorem elaborateMethodCall_grows {call : CallSyntax} {m : MethodEntry} {receiver : Typed.Expr}
    {receiverType : Ty} {arguments : List Typed.Expr} {types : List Ty}
    (h : elaborateMethodCall cx elaborate here call m receiver receiverType arguments types s =
      some (l, s')) : s.Grows s' := by
  rcases elaborateMethodCall_steps h with ⟨-, block, -, expanded⟩ | ⟨-, -, -, rfl⟩ |
    ⟨-, id, made, -⟩
  · exact expandCall_grows growing expanded
  · exact grows_with_error s _
  · exact elaborateMethod_grows growing made

theorem elaborateArm_grows {call : CallSyntax} {operands : List Typed.Expr} {types : List Ty}
    (h : elaborateArm cx elaborate here call operands types s = some (l, s')) : s.Grows s' := by
  rcases elaborateArm_steps h with ⟨e, -, -, rfl⟩ | ⟨receiverType, argumentTypes, -,
    ⟨p, -, rfl, -⟩ | ⟨c, -, made⟩ | ⟨lib, name, -, rfl, -⟩ | ⟨id, m, -, -, called⟩⟩
  · exact grows_with_error s _
  · exact .refl _
  · exact elaborateConstruct_grows growing made
  · exact .refl _
  · exact elaborateMethodCall_grows growing called

theorem elaborateArms_grows {call : CallSyntax} {temps : List SlotId} {before : List ScopeVar}
    {choices : List (List Ty)} {arms : List (Typed.Arm × Completions × List ScopeVar)}
    (h : elaborateArms cx elaborate here call temps before choices s = some (arms, s')) :
    s.Grows s' := by
  induction choices generalizing s arms with
  | nil =>
    obtain ⟨-, rfl⟩ := elaborateArms_nil_steps h
    exact .refl _
  | cons types rest ih =>
    obtain ⟨arm, s₁, others, run, runRest, -⟩ := elaborateArms_cons_steps h
    exact ((grows_assigned s before).trans (elaborateArm_grows growing run)).trans (ih runRest)

theorem elaborateDispatch_grows {call : CallSyntax} {operands : List Typed.Expr}
    {types : List Ty}
    (h : elaborateDispatch cx elaborate here call operands types s = some (l, s')) :
    s.Grows s' := by
  rcases elaborateDispatch_steps h with ⟨-, single⟩ | ⟨-, ⟨n, -, -, rfl⟩ | ⟨choices, temps, s₁,
    arms, s₂, -, made, run, rfl, -⟩⟩
  · exact elaborateArm_grows growing single
  · exact grows_with_error s _
  · exact ((tempSlots_grows made).trans (elaborateArms_grows growing run)).trans
      (grows_assigned _ _)

omit growing in
theorem elaborateRead_grows {span : Span} {v : Variable}
    (h : elaborateRead cx here span v s = some (l, s')) : s.Grows s' := by
  rcases elaborateRead_steps h with ⟨-, rfl, -⟩ | ⟨e, -, -, rfl⟩ | ⟨-, c, -, rfl, -⟩ |
    ⟨-, rfl, -⟩ | ⟨-, -, rfl, -⟩ | ⟨-, rfl, -⟩
  · exact readLocal_grows _ _
  · exact grows_with_error s _
  all_goals exact .refl _

theorem elaborateAssignment_grows {span : Span} {v : Variable} {value : Expr}
    (h : elaborateAssignment cx elaborate here span v value s = some (l, s')) : s.Grows s' := by
  obtain ⟨first, s₁, run, ⟨-, -, rfl⟩ | ⟨t, -, ⟨-, -, rfl⟩ | ⟨-, -, -, rfl⟩ |
    ⟨-, c, -, -, rfl⟩ | ⟨-, -, rfl⟩ | ⟨-, -, rfl⟩⟩⟩ := elaborateAssignment_steps h
  · exact growing _ _ _ _ _ run
  · exact (growing _ _ _ _ _ run).trans (assignLocal_grows _ _ _)
  · exact (growing _ _ _ _ _ run).trans (grows_with_error _ _)
  · exact (growing _ _ _ _ _ run).trans (grows_tables _ (.extendLayout _ _ _ _))
  · exact (growing _ _ _ _ _ run).trans (grows_tables _ (.extendGlobal _ _ _))
  · exact (growing _ _ _ _ _ run).trans (grows_tables _ (.extendConstant _ _ _))

theorem elaborateExit_grows {id : NodeId} {span : Span} {keyword : String} {value : Option Expr}
    (h : elaborateExit cx elaborate here id span keyword value s = some (l, s')) :
    s.Grows s' := by
  obtain ⟨first, s₁, run, rest⟩ := elaborateExit_steps h
  have valueGrows : s.Grows s₁ := by
    cases value with
    | none => exact (pure_eq_some.1 run).2 ▸ .refl s
    | some e => exact growing _ _ _ _ _ run
  rcases rest with ⟨-, -, rfl⟩ | ⟨t, -, ⟨f, -, rfl, -⟩ | ⟨b, -, rfl, -⟩ | ⟨-, -, rfl⟩⟩
  · exact valueGrows
  · exact valueGrows
  · exact valueGrows
  · exact valueGrows.trans (grows_with_error _ _)

theorem elaborateConditional_grows {kind : ConditionKind} {condition : Expr}
    {consequent : List Expr} {alternative : Option (List Expr)}
    (h : elaborateConditional elaborate here kind condition consequent alternative s =
      some (l, s')) : s.Grows s' := by
  obtain ⟨c, s₁, run, ⟨-, -, rfl⟩ | ⟨-, first, s₂, second, s₃, runFirst, runSecond, rfl, -⟩⟩ :=
    elaborateConditional_steps h
  · exact growing _ _ _ _ _ run
  · exact ((((growing _ _ _ _ _ run).trans (elaborateBody_grows growing runFirst)).trans
      (grows_assigned _ _)).trans (elaborateBody_grows growing runSecond)).trans
      (grows_assigned _ _)

theorem elaborateWhile_grows {id : NodeId} {condition : Expr} {body : List Expr}
    (h : elaborateWhile elaborate here id condition body s = some (l, s')) : s.Grows s' := by
  obtain ⟨c, s₁, run, ⟨-, -, rfl⟩ | ⟨-, b, s₂, runBody, rfl, -⟩⟩ := elaborateWhile_steps h
  · exact growing _ _ _ _ _ run
  · exact (((growing _ _ _ _ _ run).trans (grows_loop s₁)).trans
      (elaborateBody_grows growing runBody)).trans (grows_assigned _ _)

theorem elaborateLogical_grows {connective : Connective} {left right : Expr}
    (h : elaborateLogical elaborate here connective left right s = some (l, s')) :
    s.Grows s' := by
  obtain ⟨first, s₁, run, ⟨-, -, rfl⟩ | ⟨t, second, s₂, -, runRight, rfl, -⟩⟩ :=
    elaborateLogical_steps h
  · exact growing _ _ _ _ _ run
  · exact ((growing _ _ _ _ _ run).trans (growing _ _ _ _ _ runRight)).trans
      (grows_assigned _ _)

theorem elaborateCall_grows {id : NodeId} {receiver : Option Expr} {name : String}
    {nameSpan : Span} {written : List Expr} {block : Option Block}
    (h : elaborateCall cx elaborate here id receiver name nameSpan written block s =
      some (l, s')) : s.Grows s' := by
  obtain ⟨parts, ends, s₁, run, ⟨-, -, rfl⟩ | ⟨-, sent, runSent, -⟩⟩ := elaborateCall_steps h
  · exact elaborateParts_grows growing run
  · exact (elaborateParts_grows growing run).trans (elaborateDispatch_grows growing runSent)

theorem elaborateYield_grows {span : Span} {written : List Expr}
    (h : elaborateYield elaborate here span written s = some (l, s')) : s.Grows s' := by
  obtain ⟨parts, ends, s₁, run, ⟨-, -, rfl⟩ | ⟨-, ⟨block, site, definer, parameters, s₂, body, -,
    bound, runBody, -⟩ | ⟨e, -, -, rfl⟩⟩⟩ := elaborateYield_steps h
  · exact elaborateParts_grows growing run
  · exact (((elaborateParts_grows growing run).trans (grows_assigned _ _)).trans
      (bindYielded_grows bound)).trans (elaborateBody_grows growing runBody)
  · exact (elaborateParts_grows growing run).trans (grows_with_error _ _)

end Steps

/-- Each construct keeps the property, given that its parts do. -/
theorem elaborateForm_grows {cx : Setting} {elaborate : Elaborate} (growing : elaborate.Growing) :
    Elaborate.Growing (elaborateForm cx elaborate) := by
  intro here e s l s' h
  simp only [elaborateForm] at h
  cases form : e.form with
  | literal _ | self | defMethod _ | defClass _ | defLib _ =>
    simp only [form] at h
    exact (pure_eq_some.1 h).2 ▸ .refl s
  | read v =>
    simp only [form] at h
    exact elaborateRead_grows h
  | assign v _ value =>
    simp only [form] at h
    exact elaborateAssignment_grows growing h
  | call receiver name nameSpan arguments block =>
    simp only [form] at h
    exact elaborateCall_grows growing h
  | yield arguments =>
    simp only [form] at h
    exact elaborateYield_grows growing h
  | «return» value | «break» value =>
    simp only [form] at h
    exact elaborateExit_grows growing h
  | conditional kind condition consequent alternative =>
    simp only [form] at h
    exact elaborateConditional_grows growing h
  | «while» condition body =>
    simp only [form] at h
    exact elaborateWhile_grows growing h
  | logical connective left right =>
    simp only [form] at h
    exact elaborateLogical_grows growing h
  | not operand =>
    simp only [form] at h
    obtain ⟨first, run, -⟩ := elaborateNot_steps h
    exact growing _ _ _ _ _ run

/-- No elaboration takes back an error, a method or a number that it finds. -/
theorem elaborateExpr_grows (cx : Setting) (fuel : Nat) :
    Elaborate.Growing (elaborateExpr cx fuel) := by
  induction fuel with
  | zero =>
    intro here e s l s' h
    cases h
  | succ fuel ih => exact elaborateForm_grows ih

end TypedBlocks.Inference

import TypedBlocks.Proofs.ElaboratedTypes
import TypedBlocks.Proofs.ProgramVocabulary

/-!
# Passes that come to an end

Elaboration descends to a part of the expression at hand, to the body of a method that has not been
met before, to the body of a method expanded one level deeper, or to a block given to an expansion
around the place. Each way makes a rank smaller that weighs the methods not yet met more than the
depth left, the depth more than the expansions around the place, and these more than the size of the
expression. So no more fuel is needed than the rank.
-/
namespace TypedBlocks.Inference

open Typed (InstanceId SlotId)
open Pass

namespace Pass

variable {α β : Type} {x : Pass α} {f : α → Pass β} {s s' : PassState}

/-- The step has a result. -/
def Halts (x : Pass α) (s : PassState) : Prop := ∃ r, x s = some r

theorem halts_pure (a : α) : (pure a : Pass α).Halts s := ⟨_, rfl⟩

theorem halts_fail (e : StaticError) : (fail e).Halts s := ⟨_, rfl⟩

theorem halts_bind (first : x.Halts s) (rest : ∀ a s', x s = some (a, s') → (f a).Halts s') :
    (x >>= f).Halts s := by
  obtain ⟨⟨a, s'⟩, run⟩ := first
  rw [Halts, bind_run run]
  exact rest a s' run

theorem halts_step {a : α} (run : x s = some (a, s')) (rest : (f a).Halts s') :
    (x >>= f).Halts s := by
  rw [Halts, bind_run run]
  exact rest

theorem bindVars_halts (path : ScopeChain) (ps : List Parameter) (ts : List Ty) :
    (bindVars path ps ts).Halts s := by
  induction ps generalizing ts s with
  | nil => exact halts_pure _
  | cons p ps ih =>
    cases ts with
    | nil => exact halts_pure _
    | cons t ts =>
      exact halts_step (bindVar_run _ _ _) (halts_bind (ih ts) fun _ _ _ => halts_pure _)

theorem bindYielded_halts (path : ScopeChain) (ps : List BlockParameter) (given : List Typed.Expr) :
    (bindYielded path ps given).Halts s := by
  induction ps generalizing given s with
  | nil => exact halts_pure _
  | cons p ps ih =>
    exact halts_step (bindVar_run _ _ _) (halts_bind (ih _) fun _ _ _ => halts_pure _)

theorem tempSlots_halts (ts : List Ty) : (tempSlots ts).Halts s := by
  induction ts generalizing s with
  | nil => exact halts_pure _
  | cons t ts ih => exact halts_step (tempSlot_run t) (halts_bind ih fun _ _ _ => halts_pure _)

end Pass

section Ranks

/-- The expansions that a body stands in, through the blocks around it. -/
def BodyContext.expansions : BodyContext → Nat
  | ⟨_, _, _, _, _, .body⟩ => 0
  | ⟨_, _, _, _, _, .expansion _ _ definer⟩ => definer.expansions + 1
  | ⟨_, _, _, _, _, .block _ definer⟩ => definer.expansions

theorem BodyContext.expansions_methodBody : (a : BodyContext) →
    a.methodBody.expansions = a.expansions
  | ⟨_, _, _, _, _, .body⟩ => rfl
  | ⟨_, _, _, _, _, .expansion _ _ _⟩ => rfl
  | ⟨_, _, _, _, _, .block _ definer⟩ => definer.expansions_methodBody

theorem BodyContext.expansions_withTarget (a : BodyContext) (exit : ExitTarget) (run : RunTarget) :
    (a.withTarget exit run).expansions = a.expansions := by
  rcases a with ⟨_, _, _, _, _, _ | _ | _⟩ <;> rfl

/-- A block that runs for a yield stands in fewer expansions. -/
theorem BodyContext.expansions_yielded {a definer : BodyContext} {block : Block} {site : SiteId}
    (origin : a.methodBody.origin = .expansion block site definer) :
    (blockContext block site definer).expansions < a.expansions := by
  rw [← a.expansions_methodBody]
  rcases hb : a.methodBody with ⟨path, name, selfType, selfSlot, targets, o⟩
  rw [hb] at origin
  cases origin
  exact Nat.lt_succ_self _

variable {cx : Setting} {V : Vocabulary}

theorem BodyContext.Known.expansions_le : {a : BodyContext} → {depth : Nat} →
    a.Known cx V depth → a.expansions ≤ depth
  | ⟨_, _, _, _, _, .body⟩, _, _ => Nat.zero_le _
  | ⟨_, _, _, _, _, .expansion _ _ _⟩, _, ⟨_, _, _, _, less, outer⟩ =>
    Nat.le_trans (Nat.succ_le_succ (BodyContext.Known.expansions_le outer)) less
  | ⟨_, _, _, _, _, .block _ definer⟩, _, ⟨_, _, _, less, outer⟩ =>
    Nat.le_trans (BodyContext.Known.expansions_le (a := definer) outer) (Nat.le_of_lt less)

/-- How many methods there can be, how deep expansions may nest, and how large expressions are. -/
structure Bounds where
  methods : Nat
  depth : Nat
  size : Nat

/-- What a pass over a program keeps within. -/
structure Bounds.Hold (B : Bounds) (cx : Setting) (V : Vocabulary) : Prop where
  methods : ∀ s : PassState, s.Known cx V → s.instances.length ≤ B.methods
  depth : cx.limits.maxInlineDepth = B.depth
  size : ∀ e, V.exprs e → sizeOf e ≤ B.size

/-- The rank of an expression of a size, elaborated at a place when some methods have been met: four
digits, the methods still to be met first. -/
def Bounds.rank (B : Bounds) (here : Place) (s : PassState) (size : Nat) : Nat :=
  (((B.methods - s.instances.length) * (B.depth + 1) + (B.depth - here.depth)) * (B.depth + 1) +
    here.activation.expansions) * (B.size + 1) + size

/-- No pass takes more fuel: that of the top-level body, when no method has been met. -/
def Bounds.fuel (B : Bounds) : Nat := B.rank mainPlace (PassState.start .empty) (B.size + 1)

theorem digit_lt {a b c width : Nat} (less : a < b) (small : c < width) :
    a * width + c < b * width := by
  calc a * width + c < a * width + width := Nat.add_lt_add_left small _
    _ = (a + 1) * width := (Nat.succ_mul a width).symm
    _ ≤ b * width := Nat.mul_le_mul_right width less

theorem digit_lt_digit {a b c d width : Nat} (less : a < b) (small : c < width) :
    a * width + c < b * width + d := Nat.lt_of_lt_of_le (digit_lt less small) (Nat.le_add_right _ _)

variable {B : Bounds} {here there : Place} {s s' : PassState} {m n : Nat}

/-- No more methods are left to be met in a later state. -/
theorem unmet_le (later : s.Grows s') :
    B.methods - s'.instances.length ≤ B.methods - s.instances.length :=
  Nat.sub_le_sub_left later.instances.length_le _

theorem rank_later (later : s.Grows s') : B.rank here s' m ≤ B.rank here s m := by
  refine Nat.add_le_add_right (Nat.mul_le_mul_right _ ?_) _
  refine Nat.add_le_add_right (Nat.mul_le_mul_right _ (Nat.add_le_add_right ?_ _)) _
  exact Nat.mul_le_mul_right _ (unmet_le later)

/-- A part of an expression, at a place that is as deep. -/
theorem rank_part (depth : there.depth = here.depth)
    (expansions : there.activation.expansions = here.activation.expansions) (later : s.Grows s')
    (smaller : m < n) : B.rank there s' m < B.rank here s n := by
  have same : B.rank there s' m = B.rank here s' m := by
    rw [Bounds.rank, Bounds.rank, depth, expansions]
  calc B.rank there s' m = B.rank here s' m := same
    _ ≤ B.rank here s m := rank_later later
    _ < B.rank here s n := Nat.add_lt_add_left smaller _

/-- The body of a block that stands further out. -/
theorem rank_yield (depth : there.depth = here.depth)
    (expansions : there.activation.expansions < here.activation.expansions)
    (later : s.Grows s') (small : m ≤ B.size) :
    B.rank there s' m < B.rank here s n := by
  rw [Bounds.rank, Bounds.rank, depth]
  refine digit_lt_digit (Nat.add_lt_add_of_le_of_lt (Nat.mul_le_mul_right _ ?_) expansions)
    (Nat.lt_succ_of_le small)
  exact Nat.add_le_add_right (Nat.mul_le_mul_right _ (unmet_le later)) _

/-- The body of a method expanded one level deeper. -/
theorem rank_expansion (depth : here.depth < there.depth) (within : there.depth ≤ B.depth)
    (expansions : there.activation.expansions ≤ B.depth)
    (later : s.Grows s') (small : m ≤ B.size) :
    B.rank there s' m < B.rank here s n := by
  refine digit_lt_digit (digit_lt_digit ?_ (Nat.lt_succ_of_le expansions)) (Nat.lt_succ_of_le small)
  refine Nat.add_lt_add_of_le_of_lt (Nat.mul_le_mul_right _ (unmet_le later)) ?_
  omega

/-- The body of a method that is met for the first time. -/
theorem rank_method (within : there.depth ≤ B.depth)
    (expansions : there.activation.expansions ≤ B.depth)
    (more : s.instances.length < s'.instances.length) (room : s'.instances.length ≤ B.methods)
    (small : m ≤ B.size) : B.rank there s' m < B.rank here s n := by
  refine digit_lt_digit (digit_lt_digit (digit_lt_digit ?_ ?_) (Nat.lt_succ_of_le expansions))
    (Nat.lt_succ_of_le small)
  · omega
  · omega

end Ranks

/-- Elaboration comes to an end on all expressions below a size, at a place and from a state on. -/
def Elaborate.HaltsOn (cx : Setting) (V : Vocabulary) (elaborate : Elaborate) (here : Place)
    (s : PassState) (size : Nat) : Prop :=
  ∀ e s', V.exprs e → sizeOf e < size → s'.Known cx V → s.Grows s' → (elaborate here e).Halts s'

/-- Elaboration keeps to the vocabulary and takes nothing back, and it comes to an end where the rank
is small enough. -/
structure Elaborate.Ending (cx : Setting) (V : Vocabulary) (B : Bounds) (elaborate : Elaborate)
    (fuel : Nat) : Prop where
  knowing : elaborate.Knowing cx V
  growing : elaborate.Growing
  halts : ∀ here e s, V.exprs e → here.Known cx V → s.Known cx V →
    B.rank here s (sizeOf e) < fuel → (elaborate here e).Halts s

section Constructs

variable {cx : Setting} {V : Vocabulary} {B : Bounds} {elaborate : Elaborate} {fuel size : Nat}
  {here : Place} {s s' : PassState}

theorem Elaborate.HaltsOn.later (halts : elaborate.HaltsOn cx V here s size) (grows : s.Grows s') :
    elaborate.HaltsOn cx V here s' size :=
  fun e s₁ written small known later => halts e s₁ written small known (grows.trans later)

namespace Elaborate.Ending

variable (ending : elaborate.Ending cx V B fuel)

include ending

theorem on_parts (place : here.Known cx V) (bound : B.rank here s size ≤ fuel) :
    elaborate.HaltsOn cx V here s size := by
  intro e s' written small known later
  exact ending.halts here e s' written place known
    (Nat.lt_of_lt_of_le (rank_part rfl rfl later small) bound)

/-- At the place of a loop body. -/
theorem on_loop (place : here.Known cx V) (bound : B.rank here s size ≤ fuel) (id : NodeId)
    (loop : LoopId) : elaborate.HaltsOn cx V (here.inLoop id loop) s size := by
  intro e s' written small known later
  have smaller : B.rank (here.inLoop id loop) s' (sizeOf e) < B.rank here s size :=
    rank_part rfl (here.activation.expansions_withTarget _ _) later small
  exact ending.halts _ e s' written (place.inLoop id loop) known (Nat.lt_of_lt_of_le smaller bound)

end Elaborate.Ending

section Sequences

variable (ending : elaborate.Ending cx V B fuel) (place : here.Known cx V)
  (known : s.Known cx V) (halts : elaborate.HaltsOn cx V here s size)

include ending place known halts

theorem elaborateParts_halts {es : List Expr} (small : ∀ e ∈ es, V.exprs e ∧ sizeOf e < size)
    (ends : Completions) : (elaborateParts elaborate here ends es).Halts s := by
  induction es generalizing s ends with
  | nil => exact halts_pure _
  | cons e es ih =>
    rw [List.forall_mem_cons] at small
    refine halts_bind (halts e s small.1.1 small.1.2 known (.refl s)) fun first s₁ run => ?_
    dsimp only
    split
    · have known₁ := (ending.knowing _ _ _ _ _ small.1.1 place known run).1
      have later := halts.later (ending.growing _ _ _ _ _ run)
      exact halts_bind (ih known₁ later small.2 _) fun _ _ _ => halts_pure _
    · exact halts_pure _

theorem elaborateBody_halts {body : List Expr}
    (small : ∀ e ∈ body, V.exprs e ∧ sizeOf e < size) :
    (elaborateBody elaborate here body).Halts s := by
  simp only [elaborateBody]
  split
  · exact halts_pure _
  · exact halts_bind (elaborateParts_halts ending place known halts small _)
      fun _ _ _ => halts_pure _

theorem withOperands_halts {operands : List Expr}
    {next : List Typed.Expr → Completions → Pass Elaborated}
    (small : ∀ e ∈ operands, V.exprs e ∧ sizeOf e < size)
    (rest : ∀ parts ends s₁, s₁.Known cx V → s.Grows s₁ →
      (∀ c ∈ parts, c.AllTypes (Ty.Known V)) → (next parts ends).Halts s₁) :
    (withOperands elaborate here operands next).Halts s := by
  refine halts_bind (elaborateParts_halts ending place known halts small _)
    fun parts s₁ run => ?_
  obtain ⟨known₁, -, types⟩ := elaborateParts_known ending.knowing place known
    (Completions.ofNormal_all .nil) (fun e member => (small e member).1) run
  dsimp only
  split
  · exact rest _ _ s₁ known₁ (elaborateParts_grows ending.growing run) types
  · exact halts_pure _

theorem withOperand_halts {operand : Expr} {next : Elaborated → Ty → Pass Elaborated}
    (written : V.exprs operand) (small : sizeOf operand < size)
    (rest : ∀ l t s₁, s₁.Known cx V → s.Grows s₁ → (next l t).Halts s₁) :
    (withOperand elaborate here operand next).Halts s := by
  refine halts_bind (halts operand s written small known (.refl s)) fun l s₁ run => ?_
  have known₁ := (ending.knowing _ _ _ _ _ written place known run).1
  cases l.ends.normal with
  | some t => exact rest l t s₁ known₁ (ending.growing _ _ _ _ _ run)
  | none => exact halts_pure _

end Sequences

section Leaves

theorem elaborateRead_halts (span : Span) (v : Variable) :
    (elaborateRead cx here span v).Halts s := by
  simp only [elaborateRead]
  cases v.kind with
  | «local» => exact ⟨_, elaborateLocal_run v.name⟩
  | instanceVar =>
    simp only [elaborateInstanceVar]
    split
    · exact halts_fail _
    · exact ⟨_, rfl⟩
  | global => exact ⟨_, rfl⟩
  | constant =>
    simp only [elaborateConstant]
    split
    · exact halts_pure _
    · split
      · exact ⟨_, rfl⟩
      · exact halts_fail _

end Leaves

section Control

variable (ending : elaborate.Ending cx V B fuel) (place : here.Known cx V)
  (known : s.Known cx V)

include ending place known

section Parts

variable (halts : elaborate.HaltsOn cx V here s size)

include halts

theorem elaborateAssignment_halts {span : Span} {v : Variable} {value : Expr}
    (written : V.exprs value) (small : sizeOf value < size) :
    (elaborateAssignment cx elaborate here span v value).Halts s := by
  refine withOperand_halts ending place known halts written small fun l t s₁ _ _ => ?_
  cases v.kind with
  | «local» => exact halts_step (localVar_run _ _ _) ⟨_, rfl⟩
  | instanceVar =>
    dsimp only
    split
    · exact halts_fail _
    · exact ⟨_, rfl⟩
  | global | constant => exact ⟨_, rfl⟩

theorem elaborateExit_halts {id : NodeId} {span : Span} {keyword : String} {value : Option Expr}
    (small : ∀ e ∈ value, V.exprs e ∧ sizeOf e < size) :
    (elaborateExit cx elaborate here id span keyword value).Halts s := by
  have leave (l : Elaborated) (t : Ty) (s : PassState) :
      (leaveTo l t keyword span (exitTarget? cx here id)).Halts s := by
    unfold leaveTo
    split
    · exact halts_pure _
    · exact halts_pure _
    · exact halts_fail _
  cases value with
  | none => exact leave Elaborated.nil Ty.nil s
  | some e =>
    obtain ⟨written, smaller⟩ := small e rfl
    exact withOperand_halts ending place known halts written smaller fun l t s₁ _ _ => leave l t s₁

theorem elaborateNot_halts {operand : Expr} (written : V.exprs operand)
    (small : sizeOf operand < size) : (elaborateNot elaborate here operand).Halts s :=
  withOperand_halts ending place known halts written small fun _ _ _ _ _ => halts_pure _

theorem elaborateConditional_halts {kind : ConditionKind} {condition : Expr}
    {consequent : List Expr} {alternative : Option (List Expr)} (written : V.exprs condition)
    (small : sizeOf condition < size) (first : ∀ d ∈ consequent, V.exprs d ∧ sizeOf d < size)
    (second : ∀ d ∈ alternative.getD [], V.exprs d ∧ sizeOf d < size) :
    (elaborateConditional elaborate here kind condition consequent alternative).Halts s := by
  refine withOperand_halts ending place known halts written small fun c t s₁ known₁ grows₁ => ?_
  refine halts_step assigned_run (halts_bind
    (elaborateBody_halts ending place known₁ (halts.later grows₁) first) fun yes s₂ run => ?_)
  have known₂ := (elaborateBody_known ending.knowing place known₁ (fun d member =>
    (first d member).1) run).1
  have grows₂ := grows₁.trans (elaborateBody_grows ending.growing run)
  refine halts_step assigned_run (halts_step (setAssigned_run _) ?_)
  cases alternative with
  | none => exact ⟨_, rfl⟩
  | some body =>
    exact halts_bind (elaborateBody_halts ending place (known₂.withAssigned known₁.assigned)
      (halts.later (grows₂.trans (grows_assigned _ _))) second) fun _ _ _ => ⟨_, rfl⟩

theorem elaborateLogical_halts {connective : Connective} {left right : Expr}
    (written : V.exprs left) (small : sizeOf left < size) (other : V.exprs right)
    (smaller : sizeOf right < size) :
    (elaborateLogical elaborate here connective left right).Halts s := by
  refine withOperand_halts ending place known halts written small fun l t s₁ known₁ grows₁ => ?_
  refine halts_step assigned_run ?_
  exact halts_bind (halts right s₁ other smaller known₁ grows₁) fun _ _ _ => ⟨_, rfl⟩

end Parts

theorem elaborateWhile_halts {id : NodeId} {condition : Expr} {body : List Expr}
    (bound : B.rank here s size ≤ fuel) (written : V.exprs condition)
    (small : sizeOf condition < size) (inside : ∀ d ∈ body, V.exprs d ∧ sizeOf d < size) :
    (elaborateWhile elaborate here id condition body).Halts s := by
  refine withOperand_halts ending place known (ending.on_parts place bound) written small
    fun c t s₁ known₁ grows₁ => ?_
  refine halts_step assigned_run (halts_step newLoop_run ?_)
  have entered : ({ s₁ with nextLoop := s₁.nextLoop + 1 } : PassState).Known cx V := { known₁ with }
  have grows := grows₁.trans (grows_loop s₁)
  refine halts_bind (elaborateBody_halts ending (place.inLoop id ⟨s₁.nextLoop⟩) entered
    ((ending.on_loop place bound id ⟨s₁.nextLoop⟩).later grows) inside) fun _ _ _ => ?_
  exact ⟨_, rfl⟩

end Control

section Calls

variable {call : CallSyntax} {arguments : List Typed.Expr} {types : List Ty}
  (ending : elaborate.Ending cx V B fuel) (holds : B.Hold cx V) (covers : V.Covers cx)
  (place : here.Known cx V) (known : s.Known cx V) (bound : B.rank here s size ≤ fuel)

include ending holds covers place known bound

theorem elaborateMethod_halts {key : Instantiation} (callee : key.Known cx V) :
    (elaborateMethod cx elaborate here.depth key).Halts s := by
  refine halts_step get_run ?_
  dsimp only
  cases absent : s.instances.lookup key with
  | some id => exact halts_pure _
  | none =>
    obtain ⟨m, found, -⟩ := callee.arity
    dsimp only
    simp only [found]
    refine halts_step (modify_run _) (halts_step newFrame_run (halts_step get_run
      (halts_step (modify_run _) (halts_step (bindSelf_run _ _) ?_))))
    refine halts_bind (bindVars_halts _ _ _) fun parameters s₁ bound₁ => ?_
    have entered : bindVars [.instance key] m.parameters key.arguments (enteredMethod key s) =
      some (parameters, s₁) := bound₁
    have placeBody := methodPlace_known callee m place.depth s
    have path := placeBody.activation.path.mono place.depth
    obtain ⟨names, written⟩ := covers.methods _ _ found
    have known₁ := PassState.Known.bindVars path (enteredMethod_known known callee absent path)
      names callee.arguments entered
    have halts : elaborate.HaltsOn cx V (methodPlace key m here.depth s) s₁ (B.size + 1) := by
      intro e s' inside small known' later
      refine ending.halts _ e s' inside placeBody known' (Nat.lt_of_lt_of_le ?_ bound)
      have more : (enteredMethod key s).instances.length ≤ s'.instances.length :=
        ((bindVars_grows entered).trans later).instances.length_le
      simp only [enteredMethod, admitted, List.length_append, List.length_singleton] at more
      exact rank_method (holds.depth ▸ place.depth) (Nat.zero_le _) more (holds.methods s' known')
        (Nat.le_of_lt_succ small)
    exact halts_bind (elaborateBody_halts ending placeBody known₁ halts fun e member =>
      ⟨written e member, Nat.lt_succ_of_le (holds.size e (written e member))⟩) fun _ _ _ => ⟨_, rfl⟩

theorem expandCall_halts {m : MethodEntry} {key : Instantiation} {block : Block}
    {receiver : Typed.Expr} (site : V.nodes call.id) (given : BlockKnown V block)
    (callee : key.Known cx V) (found : cx.definitions.method? key.method = some m) :
    (expandCall cx elaborate here call m key block receiver arguments).Halts s := by
  simp only [expandCall]
  split
  · exact halts_fail _
  · rename_i deep
    have shallow := Nat.lt_of_not_le deep
    refine halts_step newSite_run (halts_step newFrame_run (halts_step assigned_run
      (halts_step (unassign_run _) (halts_step (bindSelf_run _ _) ?_))))
    refine halts_bind (bindVars_halts _ _ _) fun parameters s₁ bound₁ => ?_
    have entered : bindVars (expansionPath here call key) m.parameters key.arguments
      (enteredExpansion here call key s) = some (parameters, s₁) := bound₁
    have placeBody := expansionPlace_known place site callee given shallow m s
    have scope := placeBody.activation.path.mono placeBody.depth
    obtain ⟨names, written⟩ := covers.methods _ _ found
    have known₁ := PassState.Known.bindVars scope (enteredExpansion_known known scope) names
      callee.arguments entered
    have grows : s.Grows s₁ :=
      (enteredExpansion_grows here call key s).trans (bindVars_grows entered)
    have halts :
        elaborate.HaltsOn cx V (expansionPlace here call m key block s) s₁ (B.size + 1) := by
      intro e s' inside small known' later
      refine ending.halts _ e s' inside placeBody known' (Nat.lt_of_lt_of_le ?_ bound)
      have within : (expansionPlace here call m key block s).depth ≤ B.depth :=
        holds.depth ▸ placeBody.depth
      exact rank_expansion (Nat.lt_succ_self _) within
        (Nat.le_trans placeBody.activation.expansions_le within) (grows.trans later)
        (Nat.le_of_lt_succ small)
    refine halts_bind (elaborateBody_halts ending placeBody known₁ halts fun e member =>
      ⟨written e member, Nat.lt_succ_of_le (holds.size e (written e member))⟩) fun _ _ _ => ?_
    refine halts_step (slotsWithin_run _) ?_
    split <;> exact ⟨_, rfl⟩

theorem elaborateMethodCall_halts {m : MethodEntry} {receiver : Typed.Expr} {receiverType : Ty}
    (site : V.nodes call.id) (given : ∀ b ∈ call.block, BlockKnown V b)
    (callee : (calledKey m receiverType types).Known cx V)
    (found : cx.definitions.method? m.id = some m) :
    (elaborateMethodCall cx elaborate here call m receiver receiverType arguments types).Halts s := by
  simp only [elaborateMethodCall]
  cases owner : m.owner
  all_goals
    rw [calledKey, owner] at callee
    dsimp only
    split
    · cases block : call.block with
      | some b =>
        exact expandCall_halts ending holds covers place known bound site (given b block) callee found
      | none => exact halts_fail _
    · exact halts_bind (elaborateMethod_halts ending holds covers place known bound callee)
        fun _ _ _ => ⟨_, rfl⟩

variable (consistent : cx.definitions.Consistent)

include consistent

theorem elaborateConstruct_halts {c : String} (className : V.classes c)
    (each : ∀ t ∈ types, t.Known V) :
    (elaborateConstruct cx elaborate here call c arguments types).Halts s := by
  simp only [elaborateConstruct]
  refine halts_step tables_run ?_
  cases chosen : initializer? cx (s.tables.objectTy c) types with
  | some id =>
    have callee : Instantiation.Known cx V ⟨id, s.tables.objectTy c, types⟩ :=
      ⟨known.tables.objectTy className, each, initializer?_callable consistent chosen⟩
    refine halts_bind (elaborateMethod_halts ending holds covers place known bound callee)
      fun _ _ _ => halts_step tables_run ?_
    split <;> exact ⟨_, rfl⟩
  | none =>
    dsimp only
    split
    · exact ⟨_, rfl⟩
    · exact halts_fail _

theorem elaborateArm_halts {operands : List Typed.Expr} (site : V.nodes call.id)
    (given : ∀ b ∈ call.block, BlockKnown V b) (each : ∀ t ∈ types, t.Known V) :
    (elaborateArm cx elaborate here call operands types).Halts s := by
  simp only [elaborateArm]
  cases types with
  | nil => exact halts_fail _
  | cons receiverType argumentTypes =>
    dsimp only
    cases callee : calleeFor? cx call receiverType argumentTypes with
    | none =>
      rw [calleeFor?] at callee
      simp only [callee]
      exact halts_fail _
    | some choice =>
      have dispatched := callee
      rw [calleeFor?] at dispatched
      simp only [dispatched]
      cases choice with
      | primitive p => exact halts_pure _
      | construct c =>
        exact elaborateConstruct_halts ending holds covers place known bound consistent
          (covers.classes c (by simp [Definitions.dispatch?_construct dispatched]))
          (List.forall_mem_cons.1 each).2
      | foreign lib name => exact ⟨_, rfl⟩
      | method id =>
        dsimp only
        cases found : cx.definitions.method? id with
        | none => exact halts_fail _
        | some m =>
          obtain ⟨itself, key⟩ := calledKey_known consistent each callee found
          exact elaborateMethodCall_halts ending holds covers place known bound site given key itself

theorem elaborateArms_halts {temps : List SlotId} {before : List ScopeVar}
    {choices : List (List Ty)} (site : V.nodes call.id) (given : ∀ b ∈ call.block, BlockKnown V b)
    (start : ∀ k ∈ before, k.Known cx V) (each : ∀ ts ∈ choices, ∀ t ∈ ts, t.Known V) :
    (elaborateArms cx elaborate here call temps before choices).Halts s := by
  induction choices generalizing s with
  | nil => exact halts_pure _
  | cons types rest ih =>
    rw [List.forall_mem_cons] at each
    have known₁ := known.withAssigned start
    have bound₁ := Nat.le_trans (rank_later (grows_assigned s before)) bound
    refine halts_step (setAssigned_run _) (halts_bind
      (elaborateArm_halts ending holds covers place known₁ bound₁ consistent site given each.1)
      fun arm s₂ run => halts_step assigned_run ?_)
    obtain ⟨known₂, -⟩ := elaborateArm_known covers ending.knowing place known₁ consistent site given
      each.1 (armOperands_known each.1) run
    have bound₂ := Nat.le_trans (rank_later (elaborateArm_grows ending.growing run)) bound₁
    exact halts_bind (ih known₂ bound₂ each.2) fun _ _ _ => halts_pure _

theorem elaborateDispatch_halts {operands : List Typed.Expr} (site : V.nodes call.id)
    (given : ∀ b ∈ call.block, BlockKnown V b) (each : ∀ t ∈ types, t.Known V) :
    (elaborateDispatch cx elaborate here call operands types).Halts s := by
  simp only [elaborateDispatch]
  split
  · cases expanded : armsWithin cx.limits.maxArms types with
    | error n => exact halts_fail _
    | ok chosen =>
      refine halts_bind (tempSlots_halts types) fun temps s₁ made => halts_step assigned_run ?_
      have known₁ := PassState.Known.tempSlots known made
      have bound₁ := Nat.le_trans (rank_later (tempSlots_grows made)) bound
      exact halts_bind (elaborateArms_halts ending holds covers place known₁ bound₁ consistent site
        given known₁.assigned (armsWithin_known each expanded)) fun _ _ _ => ⟨_, rfl⟩
  · exact elaborateArm_halts ending holds covers place known bound consistent site given each

theorem elaborateCall_halts {e : Expr} {receiver : Option Expr} {name : String} {nameSpan : Span}
    {written : List Expr} {block : Option Block} (inside : V.exprs e)
    (form : e.form = .call receiver name nameSpan written block)
    (small : ∀ d ∈ e.parts, V.exprs d ∧ sizeOf d < size) :
    (elaborateCall cx elaborate here e.id receiver name nameSpan written block).Halts s := by
  obtain ⟨site, blocks⟩ := covers.calls e receiver name nameSpan written block inside form
  simp only [Expr.parts, form, Form.parts, List.mem_append] at small
  refine withOperands_halts ending place known (ending.on_parts place bound)
    (fun d member => small d (.inl (List.mem_append.1 member))) fun parts ends s₁ known₁ grows₁ types
      => ?_
  have sentTypes : ∀ t ∈ (sentOperands here receiver parts).filterMap (·.ty), t.Known V := by
    intro t member
    obtain ⟨c, there, type⟩ := List.mem_filterMap.1 member
    exact (sentOperands_known place types c there).own t type
  have blockKnown : ∀ b ∈ block, BlockKnown V b := by
    rintro b rfl
    exact ⟨(blocks b rfl).1, (blocks b rfl).2, fun d member => (small d (.inr member)).1⟩
  have bound₁ := Nat.le_trans (rank_later grows₁) bound
  let call : CallSyntax := ⟨e.id, name, nameSpan, block, receiver.isNone⟩
  have sent : (elaborateDispatch cx elaborate here call (sentOperands here receiver parts)
      ((sentOperands here receiver parts).filterMap (·.ty))).Halts s₁ :=
    elaborateDispatch_halts ending holds covers place known₁ bound₁ consistent site blockKnown
      sentTypes
  exact halts_bind sent fun _ _ _ => halts_pure _

omit covers consistent in
theorem elaborateYield_halts {span : Span} {written : List Expr}
    (small : ∀ d ∈ written, V.exprs d ∧ sizeOf d < size) :
    (elaborateYield elaborate here span written).Halts s := by
  refine withOperands_halts ending place known (ending.on_parts place bound) small
    fun parts ends s₁ known₁ grows₁ types => ?_
  dsimp only
  cases origin : here.activation.methodBody.origin with
  | expansion block site definer =>
    dsimp only
    refine halts_step (unassign_run _) (halts_bind (bindYielded_halts _ _ _)
      fun parameters s₂ entered => ?_)
    obtain ⟨blockKnown, standing⟩ := place.activation.yielded origin
    have placeBody : Place.Known cx V ⟨blockContext block site definer, here.depth⟩ :=
      ⟨standing, place.depth⟩
    have known₂ := PassState.Known.bindYielded (standing.path.mono place.depth)
      (known₁.withoutAssigned _) blockKnown.parameters (fun c member => (types c member).own) entered
    have grows₂ : s.Grows s₂ :=
      (grows₁.trans (grows_assigned _ _)).trans (bindYielded_grows entered)
    have halts : elaborate.HaltsOn cx V ⟨blockContext block site definer, here.depth⟩ s₂
        (B.size + 1) := by
      intro e s' inside less known' later
      refine ending.halts _ e s' inside placeBody known' (Nat.lt_of_lt_of_le ?_ bound)
      exact rank_yield rfl (BodyContext.expansions_yielded origin) (grows₂.trans later)
        (Nat.le_of_lt_succ less)
    exact halts_bind (elaborateBody_halts ending placeBody known₂ halts fun e member =>
      ⟨blockKnown.body e member, Nat.lt_succ_of_le (holds.size e (blockKnown.body e member))⟩)
      fun _ _ _ => ⟨_, rfl⟩
  | body => exact halts_fail _
  | block id definer => exact halts_fail _

end Calls

end Constructs

section Passes

variable {cx : Setting} {V : Vocabulary} {B : Bounds} {elaborate : Elaborate} {fuel : Nat}

/-- Each construct comes to an end, given that its parts do with one unit of fuel less. -/
theorem elaborateForm_halts (ending : elaborate.Ending cx V B fuel) (holds : B.Hold cx V)
    (covers : V.Covers cx) (consistent : cx.definitions.Consistent) {here : Place} {e : Expr}
    {s : PassState} (written : V.exprs e) (place : here.Known cx V) (known : s.Known cx V)
    (bound : B.rank here s (sizeOf e) ≤ fuel) : (elaborateForm cx elaborate here e).Halts s := by
  have halts := ending.on_parts place bound
  have small : ∀ d ∈ e.parts, V.exprs d ∧ sizeOf d < sizeOf e := fun d part =>
    ⟨covers.parts e written d part, Expr.sizeOf_part part⟩
  simp only [elaborateForm]
  cases form : e.form with
  | literal _ | self | defMethod _ | defClass _ | defLib _ => exact halts_pure _
  | read v => exact elaborateRead_halts e.span v
  | assign v span value =>
    obtain ⟨inside, less⟩ := small value (by simp [Expr.parts, form, Form.parts])
    exact elaborateAssignment_halts ending place known halts inside less
  | call receiver name nameSpan arguments block =>
    exact elaborateCall_halts ending holds covers place known bound consistent written form small
  | yield arguments =>
    exact elaborateYield_halts ending holds place known bound
      fun d member => small d (by simpa [Expr.parts, form, Form.parts] using member)
  | «return» value | «break» value =>
    exact elaborateExit_halts ending place known halts
      fun d member => small d (by simpa [Expr.parts, form, Form.parts] using member)
  | conditional kind condition consequent alternative =>
    simp only [Expr.parts, form, Form.parts, List.cons_append, List.mem_cons,
      List.mem_append] at small
    obtain ⟨inside, less⟩ := small _ (.inl rfl)
    exact elaborateConditional_halts ending place known halts inside less
      (fun d member => small d (.inr (.inl member))) fun d member => small d (.inr (.inr member))
  | «while» condition body =>
    simp only [Expr.parts, form, Form.parts, List.mem_cons] at small
    obtain ⟨inside, less⟩ := small _ (.inl rfl)
    exact elaborateWhile_halts ending place known bound inside less
      fun d member => small d (.inr member)
  | logical connective left right =>
    simp only [Expr.parts, form, Form.parts, List.mem_cons] at small
    obtain ⟨inside, less⟩ := small _ (.inl rfl)
    obtain ⟨other, smaller⟩ := small _ (.inr (.inl rfl))
    exact elaborateLogical_halts ending place known halts inside less other smaller
  | not operand =>
    obtain ⟨inside, less⟩ := small operand (by simp [Expr.parts, form, Form.parts])
    exact elaborateNot_halts ending place known halts inside less

/-- Elaboration comes to an end with more fuel than the rank. -/
theorem elaborateExpr_ending (holds : B.Hold cx V) (covers : V.Covers cx)
    (consistent : cx.definitions.Consistent) (fuel : Nat) :
    Elaborate.Ending cx V B (elaborateExpr cx fuel) fuel where
  knowing := elaborateExpr_knowing covers consistent fuel
  growing := elaborateExpr_grows cx fuel
  halts := by
    induction fuel with
    | zero => exact fun here e s written place known bound => absurd bound (Nat.not_lt_zero _)
    | succ fuel ih =>
      intro here e s written place known bound
      have ending : Elaborate.Ending cx V B (elaborateExpr cx fuel) fuel :=
        ⟨elaborateExpr_knowing covers consistent fuel, elaborateExpr_grows cx fuel, ih⟩
      exact elaborateForm_halts ending holds covers consistent written place known
        (Nat.le_of_lt_succ bound)

/-- A pass from known tables over known statements has a result. -/
theorem pass_halts {statements : List Expr} (holds : B.Hold cx V) (covers : V.Covers cx)
    (consistent : cx.definitions.Consistent) (written : ∀ e ∈ statements, V.exprs e) {ts : Tables}
    (tables : ts.Known cx V) (enough : B.fuel ≤ fuel) :
    Pass.Halts (elaborateProgram cx fuel statements) (PassState.start ts) := by
  have ending := elaborateExpr_ending holds covers consistent fuel
  refine halts_step newFrame_run (halts_step (bindSelf_run _ _) (halts_bind ?_ fun body s run => ?_))
  · exact elaborateBody_halts ending mainPlace_known (enteredMain_known tables)
      (ending.on_parts mainPlace_known enough) fun e member =>
        ⟨written e member, Nat.lt_succ_of_le (holds.size e (written e member))⟩
  · exact ⟨_, rfl⟩

end Passes

end TypedBlocks.Inference

import TypedBlocks.Proofs.ElaborationSteps

/-!
# Comparing passes

Whether a call is expanded depends on the number of expansions around it and on the limit, and on
nothing else does either have an effect. Two elaborations that count expansions differently thus run in
parallel: they make the same code, and their errors correspond, except where the first one meets its
limit and the second one is not bound to.
-/
namespace TypedBlocks

/-- The error is an expansion beyond the limit. -/
def StaticError.isDepth : StaticError → Bool
  | inlineDepthExceeded _ _ _ => true
  | _ => false

namespace Inference

open Typed (SlotId Slot)

/-- A second way to count expansions, up to another limit. -/
structure Recount (limit limit' : Nat) where
  depths : Nat → Nat → Prop
  /-- What the second way reports in the place of an error. -/
  error : StaticError → StaticError
  /-- Errors after which nothing is known of the second way. -/
  spared : StaticError → Prop
  next : ∀ {n n'}, depths n n' → depths (n + 1) (n' + 1)
  other : ∀ {e}, e.isDepth = false → error e = e
  within : ∀ {n n'}, depths n n' → n < limit → n' < limit'
  beyond : ∀ {n n'}, depths n n' → limit ≤ n → ∀ name span,
    spared (.inlineDepthExceeded name limit span) ∨
      limit' ≤ n' ∧ error (.inlineDepthExceeded name limit span) = .inlineDepthExceeded name limit' span

/-- The setting with another limit on expansions. -/
def Setting.withDepth (cx : Setting) (limit : Nat) : Setting :=
  { cx with limits := { cx.limits with maxInlineDepth := limit } }

@[simp] theorem Setting.withDepth_definitions (cx : Setting) (limit : Nat) :
    (cx.withDepth limit).definitions = cx.definitions := rfl

@[simp] theorem Setting.withDepth_exits (cx : Setting) (limit : Nat) :
    (cx.withDepth limit).exits = cx.exits := rfl

@[simp] theorem Setting.withDepth_captures (cx : Setting) (limit : Nat) :
    (cx.withDepth limit).captures = cx.captures := rfl

@[simp] theorem Setting.withDepth_maxArms (cx : Setting) (limit : Nat) :
    (cx.withDepth limit).limits.maxArms = cx.limits.maxArms := rfl

variable {limit limit' : Nat} {R : Recount limit limit'} {α β : Type}

/-- The state with the errors that the second way reports. -/
def Recount.state (R : Recount limit limit') (s : PassState) : PassState :=
  { s with errors := s.errors.map R.error }

/-- The second step does from the state what the first one does, unless that meets an error that the
second one is spared. -/
def Pass.FollowedAt (R : Recount limit limit') (s : PassState) (x y : Pass α) : Prop :=
  ∀ a s', x s = some (a, s') → s.errors <+: s'.errors ∧
    ((∀ e ∈ s'.errors, ¬ R.spared e) → y (R.state s) = some (a, R.state s'))

def Pass.Followed (R : Recount limit limit') (x y : Pass α) : Prop := ∀ s, Pass.FollowedAt R s x y

namespace Pass

variable {s : PassState} {x y : Pass α} {f g : α → Pass β}

theorem followed_pure (a : α) : Followed R (pure a) (pure a) := by
  intro s b s' h
  obtain ⟨rfl, rfl⟩ := pure_eq_some.1 h
  exact ⟨List.prefix_refl _, fun _ => rfl⟩

theorem FollowedAt.bind (first : FollowedAt R s x y) (rest : ∀ a, Followed R (f a) (g a)) :
    FollowedAt R s (x >>= f) (y >>= g) := by
  intro b s' h
  obtain ⟨a, s₁, run, h⟩ := bind_eq_some.1 h
  obtain ⟨kept, same⟩ := first a s₁ run
  obtain ⟨keptRest, sameRest⟩ := rest a s₁ b s' h
  refine ⟨kept.trans keptRest, fun clear => bind_eq_some.2 ⟨a, R.state s₁, ?_, sameRest clear⟩⟩
  exact same fun e member => clear e (keptRest.subset member)

theorem followed_bind (first : Followed R x y) (rest : ∀ a, Followed R (f a) (g a)) :
    Followed R (x >>= f) (y >>= g) := fun s => (first s).bind rest

/-- The same first step, which has to do with errors in no way. -/
theorem followed_step (same : Followed R x x) (rest : ∀ a, Followed R (f a) (g a)) :
    Followed R (x >>= f) (x >>= g) := followed_bind same rest

theorem followed_get {f g : PassState → Pass β}
    (rest : ∀ s, FollowedAt R s (f s) (g (R.state s))) : Followed R (get >>= f) (get >>= g) :=
  fun s => rest s

theorem followed_fail {e : StaticError} (other : e.isDepth = false) :
    Followed R (fail e) (fail e) := by
  intro s a s' h
  rw [fail_run] at h
  cases h
  refine ⟨List.prefix_append _ _, fun _ => ?_⟩
  rw [fail_run]
  simp [Recount.state, R.other other]

/-- A step that neither depends on errors nor notes one. -/
theorem followed_of_run {value : PassState → α} {change : PassState → PassState}
    (run : ∀ s, x s = some (value s, change s)) (kept : ∀ s, (change s).errors = s.errors)
    (apart : ∀ s, value (R.state s) = value s ∧ change (R.state s) = R.state (change s)) :
    Followed R x x := by
  intro s a s' h
  rw [run] at h
  cases h
  refine ⟨kept s ▸ List.prefix_refl _, fun _ => ?_⟩
  rw [run, (apart s).1, (apart s).2]

theorem followed_modify {change : PassState → PassState} (kept : ∀ s, (change s).errors = s.errors)
    (apart : ∀ s, change (R.state s) = R.state (change s)) :
    Followed R (modify change : Pass PUnit) (modify change) :=
  followed_of_run (fun _ => modify_run change) kept fun s => ⟨rfl, apart s⟩

theorem followed_newFrame : Followed R newFrame newFrame :=
  followed_of_run (fun _ => newFrame_run) (fun _ => rfl) fun _ => ⟨rfl, rfl⟩

theorem followed_newSite : Followed R newSite newSite :=
  followed_of_run (fun _ => newSite_run) (fun _ => rfl) fun _ => ⟨rfl, rfl⟩

theorem followed_newLoop : Followed R newLoop newLoop :=
  followed_of_run (fun _ => newLoop_run) (fun _ => rfl) fun _ => ⟨rfl, rfl⟩

theorem followed_tables : Followed R tables tables :=
  followed_of_run (fun _ => tables_run) (fun _ => rfl) fun _ => ⟨rfl, rfl⟩

theorem followed_assigned : Followed R assigned assigned :=
  followed_of_run (fun _ => assigned_run) (fun _ => rfl) fun _ => ⟨rfl, rfl⟩

theorem followed_isAssigned (key : ScopeVar) : Followed R (isAssigned key) (isAssigned key) :=
  followed_of_run (fun _ => isAssigned_run key) (fun _ => rfl) fun _ => ⟨rfl, rfl⟩

theorem followed_slotsWithin (outer : ScopeChain) :
    Followed R (slotsWithin outer) (slotsWithin outer) :=
  followed_of_run (fun _ => slotsWithin_run outer) (fun _ => rfl) fun _ => ⟨rfl, rfl⟩

theorem followed_slotFor (key : ScopeVar) : Followed R (slotFor key) (slotFor key) :=
  followed_of_run (fun _ => slotFor_run key) (fun _ => rfl) fun _ => ⟨rfl, rfl⟩

theorem followed_tempSlot (t : Ty) : Followed R (tempSlot t) (tempSlot t) :=
  followed_of_run (fun _ => tempSlot_run t) (fun _ => rfl) fun _ => ⟨rfl, rfl⟩

theorem followed_updateTables (change : Tables → Tables) :
    Followed R (updateTables change) (updateTables change) :=
  followed_modify (fun _ => rfl) fun _ => rfl

theorem followed_updateSlot (id : SlotId) (change : Slot → Slot) :
    Followed R (updateSlot id change) (updateSlot id change) :=
  followed_modify (fun _ => rfl) fun _ => rfl

theorem followed_setAssigned (keys : List ScopeVar) :
    Followed R (setAssigned keys) (setAssigned keys) :=
  followed_modify (fun _ => rfl) fun _ => rfl

theorem followed_markAssigned (key : ScopeVar) :
    Followed R (markAssigned key) (markAssigned key) :=
  followed_modify (fun _ => rfl) fun _ => rfl

theorem followed_unassign (outer : ScopeChain) : Followed R (unassign outer) (unassign outer) :=
  followed_modify (fun _ => rfl) fun _ => rfl

theorem followed_bindSelf (path : ScopeChain) (t : Ty) :
    Followed R (bindSelf path t) (bindSelf path t) :=
  followed_step (followed_slotFor _) fun _ =>
    followed_step (followed_updateSlot _ _) fun _ => followed_pure _

theorem followed_bindVar (path : ScopeChain) (name : String) (t : Ty) :
    Followed R (bindVar path name t) (bindVar path name t) :=
  followed_step (followed_updateTables _) fun _ =>
    followed_step (followed_markAssigned _) fun _ => followed_slotFor _

theorem followed_bindVars (path : ScopeChain) (ps : List Parameter) (ts : List Ty) :
    Followed R (bindVars path ps ts) (bindVars path ps ts) := by
  induction ps generalizing ts with
  | nil => exact followed_pure _
  | cons p ps ih =>
    cases ts with
    | nil => exact followed_pure _
    | cons t ts =>
      exact followed_step (followed_bindVar _ _ _) fun id =>
        followed_step (ih ts) fun rest => followed_pure _

theorem followed_bindYielded (path : ScopeChain) (ps : List BlockParameter)
    (arguments : List Typed.Expr) :
    Followed R (bindYielded path ps arguments) (bindYielded path ps arguments) := by
  induction ps generalizing arguments with
  | nil => exact followed_pure _
  | cons p ps ih =>
    exact followed_step (followed_bindVar _ _ _) fun id =>
      followed_step (ih _) fun rest => followed_pure _

theorem followed_tempSlots (ts : List Ty) : Followed R (tempSlots ts) (tempSlots ts) := by
  induction ts with
  | nil => exact followed_pure _
  | cons t ts ih =>
    exact followed_step (followed_tempSlot t) fun id => followed_step ih fun rest => followed_pure _

theorem followed_localVar (captures : CaptureTable) (a : BodyContext) (name : String) :
    Followed R (localVar captures a name) (localVar captures a name) :=
  followed_of_run (fun _ => localVar_run captures a name) (fun _ => rfl) fun _ => ⟨rfl, rfl⟩

end Pass

open Pass

/-- The second elaboration does at each place what the first one does at a corresponding depth. -/
def Elaborate.Followed (R : Recount limit limit') (elaborate other : Elaborate) : Prop :=
  ∀ a n n' e, R.depths n n' → Pass.Followed R (elaborate ⟨a, n⟩ e) (other ⟨a, n'⟩ e)

section Constructs

variable {cx : Setting} {R : Recount cx.limits.maxInlineDepth limit'} {elaborate other : Elaborate}
  {a : BodyContext} {n n' : Nat} (followed : elaborate.Followed R other) (depths : R.depths n n')

include followed depths

theorem elaborateParts_followed (ends : Completions) (es : List Expr) :
    Pass.Followed R (elaborateParts elaborate ⟨a, n⟩ ends es) (elaborateParts other ⟨a, n'⟩ ends es) := by
  induction es generalizing ends with
  | nil => exact followed_pure _
  | cons e es ih =>
    refine followed_bind (followed a n n' e depths) fun first => ?_
    dsimp only
    split
    · exact followed_bind (ih _) fun _ => followed_pure _
    · exact followed_pure _

theorem elaborateBody_followed (body : List Expr) :
    Pass.Followed R (elaborateBody elaborate ⟨a, n⟩ body) (elaborateBody other ⟨a, n'⟩ body) := by
  simp only [elaborateBody]
  split
  · exact followed_pure _
  · exact followed_bind (elaborateParts_followed followed depths _ body) fun _ => followed_pure _

theorem withOperands_followed (operands : List Expr)
    {next next' : List Typed.Expr → Completions → Pass Elaborated}
    (rest : ∀ parts ends, Pass.Followed R (next parts ends) (next' parts ends)) :
    Pass.Followed R (withOperands elaborate ⟨a, n⟩ operands next)
      (withOperands other ⟨a, n'⟩ operands next') := by
  refine followed_bind (elaborateParts_followed followed depths _ operands) fun p => ?_
  dsimp only
  split
  · exact rest _ _
  · exact followed_pure _

theorem withOperand_followed (operand : Expr) {next next' : Elaborated → Ty → Pass Elaborated}
    (rest : ∀ l t, Pass.Followed R (next l t) (next' l t)) :
    Pass.Followed R (withOperand elaborate ⟨a, n⟩ operand next)
      (withOperand other ⟨a, n'⟩ operand next') := by
  refine followed_bind (followed a n n' operand depths) fun l => ?_
  cases l.ends.normal with
  | some t => exact rest l t
  | none => exact followed_pure _

theorem elaborateMethod_followed (key : Instantiation) :
    Pass.Followed R (elaborateMethod cx elaborate n key)
      (elaborateMethod (cx.withDepth limit') other n' key) := by
  refine followed_get fun s => ?_
  have listed : (R.state s).instances.lookup key = s.instances.lookup key := rfl
  cases found : s.instances.lookup key with
  | some id =>
    simp only [found, listed]
    exact followed_pure id s
  | none =>
    simp only [found, listed]
    refine FollowedAt.bind (followed_modify (by intro; rfl) (by intro; rfl) s) fun _ => ?_
    rw [Setting.withDepth_definitions]
    cases cx.definitions.method? key.method with
    | none => exact followed_pure _
    | some m =>
      refine followed_step followed_newFrame fun frame => followed_get fun s₁ => ?_
      refine FollowedAt.bind (followed_modify (by intro; rfl) (by intro; rfl) s₁) fun _ => ?_
      refine followed_step (followed_bindSelf _ _) fun self => ?_
      refine followed_step (followed_bindVars _ _ _) fun parameters => ?_
      refine followed_bind (elaborateBody_followed followed depths _) fun body => ?_
      refine followed_get fun s₂ => ?_
      rintro id s' ⟨⟩
      exact ⟨List.prefix_refl _, fun _ => rfl⟩

theorem expandCall_followed {call : CallSyntax} {m : MethodEntry} {key : Instantiation} {block : Block}
    {receiver : Typed.Expr} {arguments : List Typed.Expr} :
    Pass.Followed R (expandCall cx elaborate ⟨a, n⟩ call m key block receiver arguments)
      (expandCall (cx.withDepth limit') other ⟨a, n'⟩ call m key block receiver arguments) := by
  simp only [expandCall]
  split
  · rename_i deep
    rintro s l s' h
    rw [fail_run] at h
    cases h
    refine ⟨List.prefix_append _ _, fun clear => ?_⟩
    rcases R.beyond depths deep m.fullName call.nameSpan with spared | ⟨deep', error⟩
    · exact absurd spared (clear _ (List.mem_append_right _ List.mem_cons_self))
    · have deep' : n' ≥ (cx.withDepth limit').limits.maxInlineDepth := deep'
      rw [if_pos deep', fail_run]
      simp [Recount.state, error, Setting.withDepth]
  · rename_i shallow
    have shallow' : ¬ n' ≥ (cx.withDepth limit').limits.maxInlineDepth :=
      Nat.not_le_of_lt (R.within depths (Nat.lt_of_not_le shallow))
    rw [if_neg shallow']
    exact followed_step followed_newSite fun site => followed_step followed_newFrame fun frame =>
      followed_step followed_assigned fun before => followed_step (followed_unassign _) fun _ =>
      followed_step (followed_bindSelf _ _) fun self => followed_step (followed_bindVars _ _ _) fun parameters =>
      followed_bind (elaborateBody_followed followed (R.next depths) _) fun body =>
      followed_step (followed_slotsWithin _) fun locals => by
        split
        · exact followed_step (followed_setAssigned _) fun _ => followed_pure _
        · exact followed_pure _

theorem elaborateConstruct_followed {call : CallSyntax} {c : String} {arguments : List Typed.Expr}
    {types : List Ty} :
    Pass.Followed R (elaborateConstruct cx elaborate ⟨a, n⟩ call c arguments types)
      (elaborateConstruct (cx.withDepth limit') other ⟨a, n'⟩ call c arguments types) := by
  refine followed_step followed_tables fun ts => ?_
  have same : initializer? (cx.withDepth limit') (ts.objectTy c) types =
      initializer? cx (ts.objectTy c) types := rfl
  dsimp only
  rw [same]
  cases initializer? cx (ts.objectTy c) types with
  | some id =>
    refine followed_bind (elaborateMethod_followed followed depths _) fun made => ?_
    refine followed_step followed_tables fun ts' => ?_
    cases ts'.result? ⟨id, ts.objectTy c, types⟩ with
    | some t => exact followed_step followed_tables fun _ => followed_pure _
    | none => exact followed_pure _
  | none =>
    dsimp only
    split
    · exact followed_step followed_tables fun _ => followed_pure _
    · exact followed_fail rfl

theorem elaborateMethodCall_followed {call : CallSyntax} {m : MethodEntry} {receiver : Typed.Expr}
    {receiverType : Ty} {arguments : List Typed.Expr} {types : List Ty} :
    Pass.Followed R (elaborateMethodCall cx elaborate ⟨a, n⟩ call m receiver receiverType arguments types)
      (elaborateMethodCall (cx.withDepth limit') other ⟨a, n'⟩ call m receiver receiverType arguments
        types) := by
  simp only [elaborateMethodCall]
  cases m.owner
  all_goals
    dsimp only
    split
    · cases call.block with
      | some block => exact expandCall_followed followed depths
      | none => exact followed_fail rfl
    · refine followed_bind (elaborateMethod_followed followed depths _) fun id => ?_
      exact followed_step followed_tables fun ts => followed_pure _

theorem elaborateArm_followed {call : CallSyntax} {operands : List Typed.Expr} {types : List Ty} :
    Pass.Followed R (elaborateArm cx elaborate ⟨a, n⟩ call operands types)
      (elaborateArm (cx.withDepth limit') other ⟨a, n'⟩ call operands types) := by
  simp only [elaborateArm, Setting.withDepth_definitions]
  cases types with
  | nil => exact followed_fail rfl
  | cons receiverType argumentTypes =>
    dsimp only
    split
    · exact followed_fail rfl
    · exact followed_pure _
    · exact elaborateConstruct_followed followed depths
    · exact followed_pure _
    · split
      · exact followed_fail rfl
      · exact elaborateMethodCall_followed followed depths

theorem elaborateArms_followed {call : CallSyntax} {temps : List SlotId} {before : List ScopeVar}
    {choices : List (List Ty)} :
    Pass.Followed R (elaborateArms cx elaborate ⟨a, n⟩ call temps before choices)
      (elaborateArms (cx.withDepth limit') other ⟨a, n'⟩ call temps before choices) := by
  induction choices with
  | nil => exact followed_pure _
  | cons types rest ih =>
    exact followed_step (followed_setAssigned _) fun _ =>
      followed_bind (elaborateArm_followed followed depths) fun arm =>
        followed_step followed_assigned fun after => followed_bind ih fun _ => followed_pure _

theorem elaborateDispatch_followed {call : CallSyntax} {operands : List Typed.Expr}
    {types : List Ty} :
    Pass.Followed R (elaborateDispatch cx elaborate ⟨a, n⟩ call operands types)
      (elaborateDispatch (cx.withDepth limit') other ⟨a, n'⟩ call operands types) := by
  simp only [elaborateDispatch, Setting.withDepth_maxArms]
  split
  · split
    · exact followed_fail rfl
    · exact followed_step (followed_tempSlots _) fun temps => followed_step followed_assigned fun before =>
        followed_bind (elaborateArms_followed followed depths) fun arms =>
          followed_step (followed_setAssigned _) fun _ => followed_pure _
  · exact elaborateArm_followed followed depths

theorem elaborateYield_followed (span : Span) (arguments : List Expr) :
    Pass.Followed R (elaborateYield elaborate ⟨a, n⟩ span arguments)
      (elaborateYield other ⟨a, n'⟩ span arguments) := by
  refine withOperands_followed followed depths arguments fun parts ends => ?_
  dsimp only
  cases a.methodBody.origin with
  | expansion block site definer =>
    exact followed_step (followed_unassign _) fun _ =>
      followed_step (followed_bindYielded _ _ _) fun parameters =>
        followed_bind (elaborateBody_followed followed depths _) fun body =>
          followed_step (followed_slotsWithin _) fun locals => followed_pure _
  | body => exact followed_fail rfl
  | block id definer => exact followed_fail rfl

omit followed depths

theorem elaborateRead_followed (span : Span) (v : Variable) :
    Pass.Followed R (elaborateRead cx ⟨a, n⟩ span v) (elaborateRead (cx.withDepth limit') ⟨a, n'⟩ span v) := by
  change Pass.Followed R _ (elaborateRead cx ⟨a, n⟩ span v)
  simp only [elaborateRead]
  cases v.kind with
  | «local» =>
    refine followed_step (followed_localVar _ _ _) fun x => ?_
    refine followed_step (followed_isAssigned _) fun known => ?_
    dsimp only
    split
    · exact followed_step followed_tables fun _ => followed_pure _
    · exact followed_step (followed_updateTables _) fun _ => followed_step followed_tables fun _ => followed_pure _
  | instanceVar =>
    simp only [elaborateInstanceVar]
    split
    · exact followed_fail rfl
    · exact followed_step followed_tables fun _ => followed_pure _
  | global => exact followed_step followed_tables fun _ => followed_pure _
  | constant =>
    simp only [elaborateConstant]
    split
    · exact followed_pure _
    · split
      · exact followed_step followed_tables fun _ => followed_pure _
      · exact followed_fail rfl

include followed depths

theorem elaborateAssignment_followed (span : Span) (v : Variable) (value : Expr) :
    Pass.Followed R (elaborateAssignment cx elaborate ⟨a, n⟩ span v value)
      (elaborateAssignment (cx.withDepth limit') other ⟨a, n'⟩ span v value) := by
  refine withOperand_followed followed depths value fun l t => ?_
  cases v.kind with
  | «local» =>
    exact followed_step (followed_localVar _ _ _) fun x => followed_step (followed_updateTables _) fun _ =>
      followed_step (followed_markAssigned _) fun _ => followed_pure _
  | instanceVar =>
    dsimp only
    split
    · exact followed_fail rfl
    · exact followed_step (followed_updateTables _) fun _ => followed_pure _
  | global => exact followed_step (followed_updateTables _) fun _ => followed_pure _
  | constant => exact followed_step (followed_updateTables _) fun _ => followed_pure _

theorem elaborateExit_followed (id : NodeId) (span : Span) (keyword : String) (value : Option Expr) :
    Pass.Followed R (elaborateExit cx elaborate ⟨a, n⟩ id span keyword value)
      (elaborateExit (cx.withDepth limit') other ⟨a, n'⟩ id span keyword value) := by
  have leave (l : Elaborated) (t : Ty) : Pass.Followed R
      (leaveTo l t keyword span (exitTarget? cx ⟨a, n⟩ id))
      (leaveTo l t keyword span (exitTarget? cx ⟨a, n⟩ id)) := by
    rcases exitTarget? cx ⟨a, n⟩ id with _ | _ | _
    · exact followed_fail rfl
    · exact followed_pure _
    · exact followed_pure _
  cases value with
  | none => exact leave Elaborated.nil Ty.nil
  | some e => exact withOperand_followed followed depths e leave

/-- Each construct is followed if its parts are. -/
theorem elaborateForm_followed (e : Expr) :
    Pass.Followed R (elaborateForm cx elaborate ⟨a, n⟩ e)
      (elaborateForm (cx.withDepth limit') other ⟨a, n'⟩ e) := by
  simp only [elaborateForm]
  cases e.form with
  | literal _ | self | defMethod _ | defClass _ | defLib _ => exact followed_pure _
  | read v => exact elaborateRead_followed e.span v
  | assign v _ value => exact elaborateAssignment_followed followed depths e.span v value
  | call receiver name nameSpan arguments block =>
    exact withOperands_followed followed depths _ fun parts ends =>
      followed_bind (elaborateDispatch_followed followed depths) fun _ => followed_pure _
  | yield arguments => exact elaborateYield_followed followed depths e.span arguments
  | «return» value | «break» value => exact elaborateExit_followed followed depths e.id e.span _ value
  | conditional kind condition consequent alternative =>
    refine withOperand_followed followed depths condition fun c _ => followed_step followed_assigned fun before =>
      followed_bind (elaborateBody_followed followed depths consequent) fun first =>
        followed_step followed_assigned fun after => followed_step (followed_setAssigned _) fun _ => ?_
    have rest (second : Elaborated) (afterSecond : List ScopeVar) (both : Elaborated × Elaborated) :
        Pass.Followed R
          (setAssigned (assignedAfter before
            [(first.ends.fallsThrough, after), (second.ends.fallsThrough, afterSecond)]) >>= fun _ =>
          (pure (.ofNode (.conditional c.code both.1.code both.2.code)
            ((c.ends.dropNormal.join both.1.ends).join both.2.ends)) : Pass Elaborated))
          (setAssigned (assignedAfter before
            [(first.ends.fallsThrough, after), (second.ends.fallsThrough, afterSecond)]) >>= fun _ =>
          pure (.ofNode (.conditional c.code both.1.code both.2.code)
            ((c.ends.dropNormal.join both.1.ends).join both.2.ends))) :=
      followed_step (followed_setAssigned _) fun _ => followed_pure _
    cases alternative with
    | some body =>
      refine followed_bind (elaborateBody_followed followed depths body) fun second =>
        followed_step followed_assigned fun afterSecond => ?_
      cases kind
      · exact rest second afterSecond (first, second)
      · exact rest second afterSecond (second, first)
    | none =>
      refine followed_step (followed_pure _) fun _ => followed_step followed_assigned fun afterSecond => ?_
      cases kind
      · exact rest _ afterSecond (first, _)
      · exact rest _ afterSecond (_, first)
  | «while» condition body =>
    exact withOperand_followed followed depths condition fun c _ => followed_step followed_assigned fun before =>
      followed_step followed_newLoop fun loop =>
        followed_bind (elaborateBody_followed followed depths body) fun _ =>
          followed_step (followed_setAssigned _) fun _ => followed_pure _
  | logical connective left right =>
    exact withOperand_followed followed depths left fun l t => followed_step followed_assigned fun before =>
      followed_bind (followed a n n' right depths) fun _ =>
        followed_step (followed_setAssigned _) fun _ => followed_pure _
  | not operand => exact withOperand_followed followed depths operand fun _ _ => followed_pure _

end Constructs

end Inference

end TypedBlocks

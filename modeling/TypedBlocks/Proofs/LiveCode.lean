import TypedBlocks.Proofs.TypedPrograms

/-!
# Live code

A compiled program has no code behind an expression that never ends normally: whatever has to be
evaluated before an evaluation can go on has a type. An expression without a type never gives a
value, because control only gets past its parts where the typing rules say so.
-/
namespace TypedBlocks

open Inference (RunTarget)

/-- Where an exit goes to. -/
def Exit.target : Exit → RunTarget
  | .return frame _ => .frame frame
  | .break target _ => .break target

/-- The value that an exit carries. -/
def Exit.value : Exit → Value
  | .return _ v | .break _ v => v

section Landings

variable {e : Exit} {v : Value} {frame : FrameId} {site : SiteId}

theorem Exit.landInFrame_some (lands : e.landInFrame frame = some v) :
    e.target = .frame frame ∧ e.value = v := by
  cases e with
  | «break» target w => cases lands
  | «return» f w =>
    rw [landInFrame] at lands
    split at lands
    · rename_i own
      cases beq_iff_eq.1 own
      cases lands
      exact ⟨rfl, rfl⟩
    · cases lands

theorem Exit.landAtCall_some (lands : e.landAtCall frame site = some v) :
    (e.target = .frame frame ∨ e.target = .break (.call site)) ∧ e.value = v := by
  cases e with
  | «return» f w =>
    have ⟨here, same⟩ := landInFrame_some (e := .return f w) lands
    exact ⟨.inl here, same⟩
  | «break» target w =>
    cases target with
    | loop id => cases lands
    | call s =>
      rw [landAtCall] at lands
      split at lands
      · rename_i own
        cases beq_iff_eq.1 own
        cases lands
        exact ⟨.inr rfl, rfl⟩
      · cases lands

theorem Exit.landAtCall_none (missed : e.landAtCall frame site = none) :
    e.target ∉ [RunTarget.frame frame, .break (.call site)] := by
  cases e with
  | «return» f w => simpa [landAtCall, target] using missed
  | «break» target w =>
    cases target with
    | loop id => simp [Exit.target]
    | call s => simpa [landAtCall, Exit.target] using missed

end Landings

namespace Typed

/-- The parts whose values are needed before the evaluation of the node can go on. -/
def Node.needed : Node → List Expr
  | .literal _ | .slot _ | .instanceVar _ _ | .global _ | .constant _ | .classRef _
  | .mainObject => []
  | .assign _ value | .assignInstanceVar _ _ value | .assignGlobal _ value
  | .assignConstant _ value | .not value | .return _ value | .break _ value => [value]
  | .sequence parts => parts.dropLast
  | .conditional condition _ _ | .while _ condition _ => [condition]
  | .and left _ | .or left _ => [left]
  | .call _ receiver arguments | .primitive _ receiver arguments => receiver :: arguments
  | .construct _ _ arguments | .foreign _ _ arguments | .yield _ _ arguments _ => arguments
  | .inline c => c.receiver :: c.arguments
  | .dispatch scrutinees _ _ => scrutinees

/-- Nothing is evaluated behind a part without a type, and a choice or a sequence has no type only
where its parts leave no way to a value. -/
structure Expr.Live (e : Expr) : Prop where
  needed : ∀ d ∈ e.node.needed, d.ty.isSome
  sequence : ∀ parts, e.node = .sequence parts →
    (e.ty = none ↔ ∃ last, parts.getLast? = some last ∧ last.ty = none)
  conditional : ∀ condition consequent alternative,
    e.node = .conditional condition consequent alternative →
      (e.ty = none ↔ consequent.ty = none ∧ alternative.ty = none)
  dispatch : ∀ scrutinees temps arms, e.node = .dispatch scrutinees temps arms →
    (e.ty = none ↔ ∀ arm ∈ arms, arm.body.ty = none)

section Rules

variable {σ : Signatures} {Γ : Context} {e : Expr}

theorem Expr.Rule.needed (rule : e.Rule σ Γ) : ∀ d ∈ e.node.needed, d.ty.isSome := by
  have carried {value : Expr} {t : Ty} (some : value.ty = some t) : value.ty.isSome := some ▸ rfl
  have listed {es : List Expr} {ts : List Ty} (types : es.map (·.ty) = ts.map some) :
      ∀ d ∈ es, d.ty.isSome := by
    intro d member
    obtain ⟨t, -, some⟩ := List.mem_map.1 (types ▸ List.mem_map_of_mem (f := Expr.ty) member)
    exact carried some.symm
  rcases e with ⟨ty, node⟩
  cases node with
  | literal _ | slot _ | instanceVar _ _ | global _ | constant _ | classRef _ | mainObject => nofun
  | assign s value =>
    obtain ⟨-, t, u, some, -⟩ := rule
    exact List.forall_mem_singleton.2 (carried some)
  | assignInstanceVar object name value =>
    obtain ⟨-, c, t, u, -, some, -⟩ := rule
    exact List.forall_mem_singleton.2 (carried some)
  | assignGlobal name value | assignConstant name value =>
    obtain ⟨-, t, u, some, -⟩ := rule
    exact List.forall_mem_singleton.2 (carried some)
  | not operand => exact List.forall_mem_singleton.2 rule.1
  | «return» target value | «break» target value => exact List.forall_mem_singleton.2 rule.1
  | sequence parts =>
    obtain ⟨before, last, rfl, typed, -⟩ := rule
    simpa only [Node.needed, List.dropLast_concat] using typed
  | conditional condition consequent alternative => exact List.forall_mem_singleton.2 rule.1
  | «while» id condition body => exact List.forall_mem_singleton.2 rule.1
  | and left right | or left right => exact List.forall_mem_singleton.2 rule.1
  | call method receiver arguments =>
    obtain ⟨m, -, -, ⟨t, some, -⟩, binds⟩ := rule
    exact List.forall_mem_cons.2 ⟨carried some, binds.typed⟩
  | primitive operation receiver arguments =>
    obtain ⟨name, t, ts, some, types, -⟩ := rule
    exact List.forall_mem_cons.2 ⟨carried some, listed types⟩
  | construct className initializer arguments =>
    cases initializer with
    | none =>
      obtain ⟨rfl, -⟩ := rule
      nofun
    | some id =>
      obtain ⟨m, -, -, -, binds⟩ := rule
      exact binds.typed
  | foreign lib name arguments => exact rule
  | inline c => exact List.forall_mem_cons.2 ⟨rule.1, rule.2.1.typed⟩
  | yield parameters slots arguments body => exact rule.1.typed
  | dispatch scrutinees temps arms =>
    obtain ⟨-, ⟨ts, types, -⟩, -⟩ := rule
    exact listed types

/-- What the typing rules allow is live. -/
theorem Expr.Rule.live (rule : e.Rule σ Γ) : e.Live where
  needed := rule.needed
  sequence parts node := by
    rcases e with ⟨ty, node'⟩
    cases node
    obtain ⟨before, last, rfl, -, rfl⟩ := rule
    simp
  conditional condition consequent alternative node := by
    rcases e with ⟨ty, node'⟩
    cases node
    obtain ⟨-, rfl⟩ := rule
    cases consequent.ty <;> cases alternative.ty <;> simp [Ty.mergeOption]
  dispatch scrutinees temps arms node := by
    rcases e with ⟨ty, node'⟩
    cases node
    obtain ⟨-, -, above, some⟩ := rule
    constructor
    · rintro rfl arm member
      have below := above arm member
      cases type : arm.body.ty with
      | none => rfl
      | some t =>
        rw [type] at below
        cases below
    · intro none
      cases ty with
      | none => rfl
      | some t =>
        obtain ⟨arm, member, typed⟩ := some rfl
        rw [none arm member] at typed
        cases typed

end Rules

section Evaluation

/-- An evaluation that gives a value only if the proposition holds, and is left only for targets
that are allowed. -/
structure Ends {α : Type} (value : Prop) (allowed : RunTarget → Prop) (x : Eval α) : Prop where
  returns : ∀ m a m', x m = .ok a m' → value
  leaves : ∀ m e m', x m = .error (.exit e) m' → allowed e.target

variable {α β : Type} {V W : Prop} {L L' : RunTarget → Prop} {x : Eval α}

theorem Ends.mono (ends : Ends V L x) (value : V → W) (allowed : ∀ t, L t → L' t) : Ends W L' x where
  returns m a m' h := value (ends.returns m a m' h)
  leaves m e m' h := allowed _ (ends.leaves m e m' h)

theorem ends_pure (value : V) (a : α) : Ends V L (pure a : Eval α) where
  returns _ _ _ _ := value
  leaves _ _ _ h := by cases h

theorem ends_get : Ends True L (get : Eval Machine) where
  returns _ _ _ _ := trivial
  leaves _ _ _ h := by cases h

theorem ends_modify (f : Machine → Machine) : Ends True L (modify f : Eval PUnit) where
  returns _ _ _ _ := trivial
  leaves _ _ _ h := by cases h

theorem ends_modifyGet (f : Machine → α × Machine) : Ends True L (modifyGet f : Eval α) where
  returns _ _ _ _ := trivial
  leaves _ _ _ h := by cases h

theorem ends_fault (f : Fault) : Ends V L (throw (.fault f) : Eval α) where
  returns _ _ _ h := by cases h
  leaves _ _ _ h := by cases h

theorem ends_exit {e : Exit} (allowed : L e.target) : Ends V L (throw (.exit e) : Eval α) where
  returns _ _ _ h := by cases h
  leaves _ _ _ h := by
    cases h
    exact allowed

/-- What comes second only runs if what comes first gives a value. -/
theorem ends_bind {f : α → Eval β} (first : Ends V L x) (next : V → ∀ a, Ends W L (f a)) :
    Ends W L (x >>= f) where
  returns m b m' h := by
    obtain ⟨a, m₁, run, rest⟩ := bind_eq_ok.1 h
    exact (next (first.returns m a m₁ run) a).returns m₁ b m' rest
  leaves m e m' h := by
    rcases bind_eq_error.1 h with left | ⟨a, m₁, run, rest⟩
    · exact first.leaves m e m' left
    · exact (next (first.returns m a m₁ run) a).leaves m₁ e m' rest

theorem ends_mapM {run : Expr → Eval Value} {es : List Expr} {typed : Expr → Prop}
    (each : ∀ e ∈ es, Ends (typed e) L (run e)) : Ends True L (es.mapM run) := by
  induction es with
  | nil => exact ends_pure trivial _
  | cons e es ih =>
    rw [List.mapM_cons]
    exact ends_bind (each e List.mem_cons_self) fun _ v =>
      ends_bind (ih fun e member => each e (List.mem_cons_of_mem _ member)) fun _ vs =>
        ends_pure trivial _

/-- Once the last part gives a value, the sequence does. -/
theorem ends_sequence {run : Expr → Eval Value} {before : List Expr} {e : Expr} {typed : Expr → Prop}
    (each : ∀ d ∈ before ++ [e], Ends (typed d) L (run d)) (last : Value) :
    Ends (typed e) L (evalSequence run last (before ++ [e])) := by
  induction before generalizing last with
  | nil =>
    exact ends_bind (each e List.mem_cons_self) fun typed v => ends_pure typed v
  | cons d before ih =>
    exact ends_bind (each d List.mem_cons_self) fun _ v =>
      ih (fun d member => each d (List.mem_cons_of_mem _ member)) v

/-- Exits that land are values. -/
theorem ends_landing {land : Exit → Option Value} {x : Eval Value} (inner : Ends V L x)
    (value : V → W) (lands : ∀ e v, L e.target → land e = some v → W)
    (passes : ∀ e, L e.target → land e = none → L' e.target) :
    Ends W L' (Eval.landing land x) where
  returns m v m' h := by
    cases Eval.landing_ends h with
    | value run => exact value (inner.returns _ _ _ run)
    | lands left found => exact lands _ _ (inner.leaves _ _ _ left) found
  leaves m e m' h := by
    cases Eval.landing_ends h with
    | passes left missed => exact passes _ (inner.leaves _ _ _ left) missed
    | stops _ other => exact absurd rfl (other e)

theorem ends_withSlots {slots : Array Value} (inner : Ends V L x) :
    Ends V L (Eval.withSlots slots x) where
  returns m a m' h := by
    obtain ⟨m₁, run, -⟩ := Eval.withSlots_eq_ok.1 h
    exact inner.returns _ _ _ run
  leaves m e m' h := by
    obtain ⟨m₁, left, -⟩ := Eval.withSlots_eq_error.1 h
    exact inner.leaves _ _ _ left

/-- The evaluation gives a value only if the expression has a type, and is left only as the
expression is. -/
def Expr.Ends (e : Expr) (x : Eval Value) : Prop :=
  Typed.Ends e.ty.isSome (fun target => ∃ t, e.Leaves target t) x

/-- Control gets past an operand with its value, or leaves the whole expression. -/
theorem Expr.Ends.operand {d e : Expr} {x : Eval Value} (ends : d.Ends x)
    (part : d ∈ e.node.operands) :
    Typed.Ends d.ty.isSome (fun target => ∃ t, e.Leaves target t) x :=
  ends.mono id fun _ ⟨t, leaves⟩ => ⟨t, .operand part leaves⟩

variable {σ : Signatures} {p : Program} {fuel : Nat}

/-- No exit gets out of a method, and its value is that of its body or of a return. -/
theorem Method.WellTyped.ends {m : Method} (typed : m.WellTyped σ) (whole : p.Scoped)
    (member : m ∈ p.methods) (inner : m.body.Ends (p.eval fuel m.body)) (receiver : Value)
    (arguments : List Value) :
    Ends m.returnType.isSome L (m.invoke (p.eval fuel) receiver arguments) where
  returns := by
    refine (ends_withSlots (ends_landing inner typed.result.isSome ?_
      fun _ _ _ => trivial : Ends _ (fun _ => True) _)).returns
    rintro e v ⟨t, leaves⟩ lands
    obtain ⟨own, -⟩ := Exit.landInFrame_some lands
    obtain ⟨u, some, -⟩ := typed.returns t (own ▸ leaves)
    rw [some]
    rfl
  leaves machine e machine' left := by
    have nothing : Confined ⟨[], [], [], 0, p.arity⟩ (m.invoke (p.eval fuel) receiver arguments) :=
      invoke_confined (eval_confined whole fuel rfl (whole.methods m member).body) _ _
    have allowed := nothing _ _ _ left
    cases e with
    | «return» frame w => cases allowed
    | «break» target w => cases target <;> cases allowed

theorem eval_true {e : Expr} {m m' : Machine} {v : Value}
    (always : e.node = .literal (.boolean true)) (run : p.eval fuel e m = .ok v m') :
    v.countsAsTrue = true := by
  cases fuel with
  | zero => cases run
  | succ fuel =>
    rw [Program.eval, Program.evalNode, always] at run
    cases run
    rfl

/-- A loop gives a value only by a break or a failed test, for both of which it has a type. -/
theorem ends_while {ty : Option Ty} {id : LoopId} {condition body : Expr}
    (again : Expr.Ends ⟨ty, .while id condition body⟩ (p.eval fuel ⟨ty, .while id condition body⟩))
    (tested : condition.Ends (p.eval fuel condition)) (ran : body.Ends (p.eval fuel body))
    (breaks : body.Exits (.break (.loop id)) ty)
    (stops : condition.node ≠ .literal (.boolean true) → ty.isSome) :
    Expr.Ends ⟨ty, .while id condition body⟩
      (p.evalNode (p.eval fuel) ⟨ty, .while id condition body⟩) where
  returns m v m' h := by
    cases Program.while_ends h with
    | fails tested fails =>
      refine stops fun always => ?_
      rw [eval_true always tested] at fails
      cases fails
    | round _ _ _ goes => exact again.returns _ _ _ goes
    | breaks _ _ left =>
      obtain ⟨t, leaves⟩ := ran.leaves _ _ _ left
      obtain ⟨u, rfl, -⟩ := breaks t leaves
      rfl
  leaves m e m' h := by
    cases Program.while_ends h with
    | untested left => exact (tested.operand List.mem_cons_self).leaves _ _ _ left
    | round _ _ _ goes => exact again.leaves _ _ _ goes
    | stops _ _ left other =>
      obtain ⟨t, leaves⟩ := ran.leaves _ _ _ left
      refine ⟨t, .landing rfl (fun own => ?_) leaves⟩
      cases e with
      | «return» frame w => cases List.mem_singleton.1 own
      | «break» target w =>
        cases List.mem_singleton.1 own
        exact other w rfl

/-- What lands at a call is a value of the call, and all else that leaves the body leaves the call. -/
theorem ends_atCall {ty : Option Ty} {c : ExpandedCall} (body : c.body.Ends (p.eval fuel c.body))
    (returns : c.body.Exits (.frame c.frame) c.returnType)
    (breaks : c.body.Exits (.break (.call c.site)) c.breakType)
    (merged : ty = Ty.mergeOption c.body.ty (Ty.mergeOption c.returnType c.breakType)) :
    Ends ty.isSome (fun target => ∃ t, Expr.Leaves ⟨ty, .inline c⟩ target t)
      (Eval.landing (Exit.landAtCall c.frame c.site) (p.eval fuel c.body)) := by
  subst merged
  refine ends_landing body (by simp +contextual) ?_ ?_
  · rintro e v ⟨t, leaves⟩ lands
    rcases Exit.landAtCall_some lands with ⟨own | own, -⟩
    · obtain ⟨u, some, -⟩ := returns t (own ▸ leaves)
      simp [some]
    · obtain ⟨u, some, -⟩ := breaks t (own ▸ leaves)
      simp [some]
  · rintro e ⟨t, leaves⟩ missed
    exact ⟨t, .landing rfl (Exit.landAtCall_none missed) leaves⟩

/-- A method that is found is run, and what comes after it only if it gives a value. -/
theorem ends_invoke {globals constants : List (String × Ty)} (whole : p.Scoped)
    (program : p.WellTyped globals constants)
    (inner : ∀ Γ (d : Expr), d.WellTyped (p.signatures globals constants) Γ → d.Ends (p.eval fuel d))
    {id : InstanceId} {m : Method} (found : p.method? id = some m) (receiver : Value)
    (arguments : List Value) {k : Value → Eval Value}
    (rest : m.returnType.isSome → ∀ v, Ends W L (k v)) :
    Ends W L (p.methodOrFault id >>= fun m => m.invoke (p.eval fuel) receiver arguments >>= k) := by
  have member := Program.method?_mem found
  have typed := program.methods m member
  simp only [Program.methodOrFault, found, pure_bind]
  exact ends_bind (typed.ends whole member (inner _ _ typed.body) receiver arguments) rest

/-- One step of evaluation keeps to the typing rules if the evaluation of the parts does. -/
theorem evalNode_ends {globals constants : List (String × Ty)} {Γ : Context} {e : Expr}
    (whole : p.Scoped) (program : p.WellTyped globals constants)
    (typed : e.WellTyped (p.signatures globals constants) Γ)
    (inner : ∀ Γ (d : Expr), d.WellTyped (p.signatures globals constants) Γ → d.Ends (p.eval fuel d)) :
    e.Ends (p.evalNode (p.eval fuel) e) := by
  have ⟨rule, parts⟩ := typed
  have part {d : Expr} (member : d ∈ e.node.parts) : d.Ends (p.eval fuel d) := by
    obtain ⟨Γ', checked⟩ := Node.mem_partsIn member Γ
    exact inner Γ' d (parts _ checked)
  have operand {d : Expr} (member : d ∈ e.node.operands) :
      Ends d.ty.isSome (fun target => ∃ t, e.Leaves target t) (p.eval fuel d) :=
    (part (List.mem_append_left _ member)).operand member
  have operands {es : List Expr} (all : es ⊆ e.node.operands) :
      Ends True (fun target => ∃ t, e.Leaves target t) (es.mapM (p.eval fuel)) :=
    ends_mapM fun d member => operand (all member)
  rcases e with ⟨ty, node⟩
  cases node with
  | literal l =>
    cases rule
    exact ends_pure rfl _
  | slot s =>
    obtain ⟨t, rfl, -⟩ := rule
    exact ends_bind ends_get fun _ _ => ends_pure rfl _
  | instanceVar object name =>
    obtain ⟨c, -, rfl⟩ := rule
    exact ends_bind ends_get fun _ _ => ends_pure rfl _
  | global name | constant name =>
    cases rule
    exact ends_bind ends_get fun _ _ => ends_pure rfl _
  | classRef name | mainObject =>
    cases rule
    exact ends_pure rfl _
  | assign s value | assignInstanceVar object name value | assignGlobal name value
  | assignConstant name value =>
    obtain ⟨rfl, -⟩ := rule
    exact ends_bind (operand List.mem_cons_self) fun typed _ =>
      ends_bind (ends_modify _) fun _ _ => ends_pure typed _
  | sequence parts =>
    obtain ⟨before, last, rfl, -, rfl⟩ := rule
    exact ends_sequence (fun d member => operand member) _
  | conditional condition consequent alternative =>
    obtain ⟨-, rfl⟩ := rule
    refine ends_bind (operand List.mem_cons_self) fun _ v => ?_
    split
    · exact (operand (by simp [Node.operands])).mono (by simp +contextual) fun _ => id
    · exact (operand (by simp [Node.operands])).mono (by simp +contextual) fun _ => id
  | «while» id condition body =>
    obtain ⟨-, breaks, stops⟩ := rule
    refine ends_while (inner Γ _ typed) (part (by simp [Node.parts, Node.operands]))
      (part (by simp [Node.parts, Node.landing?])) breaks fun other => ?_
    obtain ⟨u, rfl, -⟩ := stops other
    rfl
  | and left right =>
    obtain ⟨-, rfl⟩ := rule
    refine ends_bind (operand List.mem_cons_self) fun typed v => ?_
    split
    · exact (operand (by simp [Node.operands])).mono (by simp +contextual) fun _ => id
    · exact ends_pure (by simp [typed]) _
  | or left right =>
    obtain ⟨-, rfl⟩ := rule
    refine ends_bind (operand List.mem_cons_self) fun typed v => ?_
    split
    · exact ends_pure (by simp [typed]) _
    · exact (operand (by simp [Node.operands])).mono (by simp +contextual) fun _ => id
  | not operand' =>
    obtain ⟨-, rfl⟩ := rule
    exact ends_bind (operand List.mem_cons_self) fun _ _ => ends_pure rfl _
  | call id receiver arguments =>
    obtain ⟨m, found, rfl, -⟩ := rule
    refine ends_bind (operand List.mem_cons_self) fun _ r =>
      ends_bind (operands (List.subset_cons_self _ _)) fun _ vs => ?_
    simpa using ends_invoke whole program inner found r vs fun typed v => ends_pure typed v
  | primitive operation receiver arguments =>
    obtain ⟨name, t, ts, -, -, -, rfl⟩ := rule
    refine ends_bind (operand List.mem_cons_self) fun _ r =>
      ends_bind (operands (List.subset_cons_self _ _)) fun _ vs => ?_
    cases operation.apply r vs with
    | ok v => exact ends_pure rfl v
    | error f => exact ends_fault f
  | construct className initializer arguments =>
    refine ends_bind (operands (List.Subset.refl _)) fun _ vs =>
      ends_bind (ends_modifyGet _) fun _ object => ?_
    cases initializer with
    | none =>
      obtain ⟨-, rfl⟩ := rule
      exact ends_pure rfl _
    | some id =>
      obtain ⟨m, found, -, rfl, -⟩ := rule
      exact ends_invoke whole program inner found _ _ fun typed _ =>
        ends_pure (by simpa using typed) _
  | foreign lib name arguments =>
    exact ends_bind (operands (List.Subset.refl _)) fun _ _ => ends_fault _
  | inline c =>
    obtain ⟨-, -, returns, breaks, merged⟩ := rule
    exact ends_bind (operand List.mem_cons_self) fun _ r =>
      ends_bind (operands (List.subset_cons_self _ _)) fun _ vs =>
        ends_bind (ends_modify _) fun _ _ =>
          ends_atCall (part (by simp [Node.parts, Node.landing?])) returns breaks merged
  | yield parameters slots arguments body =>
    obtain ⟨-, rfl⟩ := rule
    exact ends_bind (operands (List.subset_append_left _ _)) fun _ _ =>
      ends_bind (ends_modify _) fun _ _ => operand (d := body) (by simp [Node.operands])
  | dispatch scrutinees temps arms =>
    obtain ⟨-, -, above, -⟩ := rule
    refine ends_bind (operands (List.subset_append_left _ _)) fun _ vs =>
      ends_bind (ends_modify _) fun _ _ => ?_
    split
    · rename_i arm found
      have member := List.mem_of_find?_eq_some found
      refine (operand (d := arm.body) ?_).mono (above arm member).isSome fun _ => id
      exact List.mem_append_right _ (List.mem_map_of_mem member)
    · exact ends_fault _
  | «return» target value =>
    refine ends_bind (operand List.mem_cons_self) fun typed v => ends_exit ?_
    obtain ⟨t, carried⟩ := Option.isSome_iff_exists.1 typed
    exact ⟨t, .return carried⟩
  | «break» target value =>
    refine ends_bind (operand List.mem_cons_self) fun typed v => ends_exit ?_
    obtain ⟨t, carried⟩ := Option.isSome_iff_exists.1 typed
    exact ⟨t, .break carried⟩

/-- Evaluation gives a value only where there is a type. -/
theorem eval_ends {globals constants : List (String × Ty)} {Γ : Context} {e : Expr}
    (whole : p.Scoped) (program : p.WellTyped globals constants)
    (typed : e.WellTyped (p.signatures globals constants) Γ) (fuel : Nat) :
    e.Ends (p.eval fuel e) := by
  induction fuel generalizing Γ e with
  | zero => exact ⟨nofun, nofun⟩
  | succ fuel ih => exact evalNode_ends whole program typed fun Γ d typed => ih typed

end Evaluation

end Typed

namespace Compilation

/-- In a compiled program nothing is evaluated behind a part without a type, and an expression
without a type never gives a value, wherever it stands and on whatever machine it is evaluated. -/
theorem compiled_untyped_never_returns {options : Options} {text : String} {ds ds' : Diagnostics}
    {c : Compilation} (compiled : ofText options text ds = (.ok c, ds')) :
    ∀ m ∈ c.program.allMethods, ∀ e, Typed.Expr.Inside e m.body →
      e.Live ∧ (e.ty = none → ∀ fuel machine v machine',
        c.program.eval fuel e machine ≠ .ok v machine') := by
  obtain ⟨modules, -, -, compiled⟩ := ofText_steps compiled
  obtain ⟨globals, constants, program⟩ := ofBodies_typed compiled
  intro m member e inside
  obtain ⟨Γ, typed⟩ := (program.method member).body.inside inside
  refine ⟨typed.rule.live, fun untyped fuel machine v machine' run => ?_⟩
  have some := (Typed.eval_ends (ofBodies_exits compiled).2 program typed fuel).returns _ _ _ run
  rw [untyped] at some
  cases some

/-- A method that calls itself forever, and a loop that only a block can leave. -/
def endlessText : String :=
  "def spin(n)\n  spin(n + 1)\nend\ndef each\n  yield\n  while true\n    yield\n  end\nend\n" ++
    "y = 0\nx = each do\n  y = y + 1\n  break y if y > 3\nend\nspin(x)\n"

theorem endlessText_untyped_never_returns : ∃ c ds,
    ofText ⟨false, Inference.Limits.standard⟩ endlessText Diagnostics.empty = (.ok c, ds) ∧
      ∀ m ∈ c.program.allMethods, ∀ e, Typed.Expr.Inside e m.body →
        e.Live ∧ (e.ty = none → ∀ fuel machine v machine',
          c.program.eval fuel e machine ≠ .ok v machine') := by
  obtain ⟨c, ds, result⟩ := exists_compilation ⟨false, Inference.Limits.standard⟩ endlessText (by decide +kernel)
  exact ⟨c, ds, result, compiled_untyped_never_returns result⟩

end Compilation

end TypedBlocks

import TypedBlocks.Proofs.Completions
import TypedBlocks.Proofs.KnownStates

/-!
# Types of elaborated code

Each construct leads from known states to known states and has known ends, given that its parts do.
So a whole pass only ever meets types, scopes and methods that are made from the vocabulary.
-/
namespace TypedBlocks.Inference

open Typed (InstanceId SlotId Slot)
open Pass

/-- An elaboration that keeps to the vocabulary. -/
def Elaborate.Knowing (cx : Setting) (V : Vocabulary) (elaborate : Elaborate) : Prop :=
  ∀ here e s l s', V.exprs e → here.Known cx V → s.Known cx V →
    elaborate here e s = some (l, s') → s'.Known cx V ∧ l.Known V

variable {cx : Setting} {V : Vocabulary} {elaborate : Elaborate} {here : Place}
  {s s' : PassState} {l : Elaborated}

section Steps

theorem failed_known : Elaborated.failed.Known V :=
  ⟨Completions.never_all, rfl, .intro nofun nofun⟩

theorem ofNode_known {node : Typed.Node} {ends : Completions} (known : ends.All (Ty.Known V))
    (parts : ∀ d ∈ node.parts, d.AllTypes (Ty.Known V)) : (Elaborated.ofNode node ends).Known V :=
  ⟨known, rfl, .intro known.normal parts⟩

theorem resultTy_known (p : Primitive) (receiver : Ty) (arguments : List Ty) :
    (p.resultTy receiver arguments).Known V := by
  have number : (if (receiver :: arguments).any fun t => t.className? == some "Float"
      then Ty.float else Ty.int).Known V := by
    split <;> exact .simple trivial
  cases p <;> first | exact number | exact .simple trivial

theorem elaborated_nil_known : Elaborated.nil.Known V :=
  ofNode_known (Completions.ofNormal_all .nil) nofun

/-- Operands that stop early stand for the whole. -/
theorem stopped_known {parts : List Typed.Expr} {ends : Completions} (known : ends.All (Ty.Known V))
    (types : ∀ c ∈ parts, c.AllTypes (Ty.Known V)) (stops : ends.fallsThrough = false) :
    Elaborated.Known V ⟨Typed.Expr.ofParts parts none, ends⟩ := by
  have none : ends.normal = none := by simpa [Completions.fallsThrough] using stops
  exact ⟨known, by rw [ofParts_ty, none], .ofParts nofun types⟩

namespace PassState.Known

variable (known : s.Known cx V)

include known

theorem withError {e : StaticError} (placed : e.span.isSome) :
    ({ s with errors := s.errors ++ [e] } : PassState).Known cx V := by
  refine { known with errors := fun e' member => ?_ }
  rcases List.mem_append.1 member with old | last
  · exact known.errors e' old
  · exact List.mem_singleton.1 last ▸ placed

theorem withTables {ts : Tables} (tables : ts.Known cx V) :
    ({ s with tables := ts } : PassState).Known cx V := { known with tables }

theorem withAssigned {keys : List ScopeVar} (assigned : ∀ k ∈ keys, k.Known cx V) :
    ({ s with assigned := keys } : PassState).Known cx V := { known with assigned }

theorem withoutAssigned (p : ScopeVar → Bool) :
    ({ s with assigned := s.assigned.filter p } : PassState).Known cx V :=
  known.withAssigned fun k member => known.assigned k (List.mem_filter.1 member).1

theorem marked {key : ScopeVar} (scope : key.Known cx V) :
    ∀ k ∈ marked s.assigned key, k.Known cx V := by
  intro k member
  rw [Pass.marked] at member
  split at member
  · exact known.assigned k member
  · rcases List.mem_cons.1 member with rfl | old
    · exact scope
    · exact known.assigned k old

theorem bindVar {path : ScopeChain} {name : String} {t : Ty} {id : SlotId}
    (scope : ScopeVar.Known cx V ⟨path, name⟩) (new : V.names name) (type : t.Known V)
    (h : bindVar path name t s = some (id, s')) : s'.Known cx V := by
  rw [bindVar_run] at h
  cases h
  exact { known with
    tables := known.tables.extendVar scope new type
    slots := known.slots.slotFor scope
    assigned := known.marked scope }

omit known

theorem bindVars {path : ScopeChain} (scope : PathKnown cx V cx.limits.maxInlineDepth path)
    {ps : List Parameter} {ts : List Ty} {ids : List SlotId} (known : s.Known cx V)
    (names : ∀ p ∈ ps, V.names p.name) (types : ∀ t ∈ ts, t.Known V)
    (h : bindVars path ps ts s = some (ids, s')) : s'.Known cx V := by
  induction ps generalizing ts ids s with
  | nil => exact (pure_eq_some.1 h).2 ▸ known
  | cons p ps ih =>
    cases ts with
    | nil => exact (pure_eq_some.1 h).2 ▸ known
    | cons t ts =>
      obtain ⟨id, s₁, bound, h⟩ := bind_eq_some.1 h
      obtain ⟨rest, s₂, boundRest, h⟩ := bind_eq_some.1 h
      obtain ⟨-, rfl⟩ := pure_eq_some.1 h
      rw [List.forall_mem_cons] at names types
      exact ih (known.bindVar scope names.1 types.1 bound) names.2 types.2 boundRest

theorem bindYielded {path : ScopeChain} (scope : PathKnown cx V cx.limits.maxInlineDepth path)
    {ps : List BlockParameter} {parts : List Typed.Expr} {ids : List SlotId}
    (known : s.Known cx V) (names : ∀ p ∈ ps, V.names p.name)
    (types : ∀ c ∈ parts, ∀ t ∈ c.ty, t.Known V)
    (h : bindYielded path ps parts s = some (ids, s')) : s'.Known cx V := by
  induction ps generalizing parts ids s with
  | nil => exact (pure_eq_some.1 h).2 ▸ known
  | cons p ps ih =>
    obtain ⟨id, s₁, bound, h⟩ := bind_eq_some.1 h
    obtain ⟨rest, s₂, boundRest, h⟩ := bind_eq_some.1 h
    obtain ⟨-, rfl⟩ := pure_eq_some.1 h
    rw [List.forall_mem_cons] at names
    have type : ((parts.head?.bind (·.ty)).getD Ty.nil).Known V := by
      cases parts with
      | nil => exact .nil
      | cons c parts =>
        cases ty : c.ty with
        | none => simpa [ty] using Ty.Known.nil
        | some t => simpa [ty] using types c List.mem_cons_self t ty
    refine ih (known.bindVar scope names.1 type bound) names.2 (fun c member => ?_) boundRest
    exact types c (List.mem_of_mem_drop member)

theorem tempSlots {ts : List Ty} {ids : List SlotId} (known : s.Known cx V)
    (h : tempSlots ts s = some (ids, s')) : s'.Known cx V := by
  induction ts generalizing ids s with
  | nil => exact (pure_eq_some.1 h).2 ▸ known
  | cons t ts ih =>
    simp only [Inference.tempSlots] at h
    rw [bind_run (tempSlot_run _)] at h
    obtain ⟨rest, s₂, made, h⟩ := bind_eq_some.1 h
    obtain ⟨-, rfl⟩ := pure_eq_some.1 h
    have step : ({ s with frame := (s.frame.tempSlot t).2 } : PassState).Known cx V :=
      { known with slots := known.slots.tempSlot t }
    exact ih step made

end PassState.Known

end Steps

section Constructs

variable (covers : V.Covers cx) (knowing : elaborate.Knowing cx V) (place : here.Known cx V)
  (known : s.Known cx V)

section Sequences

include knowing place known

theorem elaborateParts_known {ends ends' : Completions} {es : List Expr}
    {codes : List Typed.Expr} (before : ends.All (Ty.Known V)) (written : ∀ e ∈ es, V.exprs e)
    (h : elaborateParts elaborate here ends es s = some ((codes, ends'), s')) :
    s'.Known cx V ∧ ends'.All (Ty.Known V) ∧ ∀ c ∈ codes, c.AllTypes (Ty.Known V) := by
  induction es generalizing ends codes s with
  | nil =>
    obtain ⟨rfl, rfl, rfl⟩ := elaborateParts_nil_steps h
    exact ⟨known, before, nofun⟩
  | cons e es ih =>
    rw [List.forall_mem_cons] at written
    obtain ⟨first, s₁, run, rest⟩ := elaborateParts_cons_steps h
    obtain ⟨known₁, knownFirst⟩ := knowing _ _ _ _ _ written.1 place known run
    have ends₁ := before.andThen (fun _ _ => Ty.Known.join) knownFirst.ends
    rcases rest with ⟨-, rest, runRest, rfl⟩ | ⟨-, rfl, rfl, rfl⟩
    · obtain ⟨known₂, ends₂, types⟩ := ih known₁ ends₁ written.2 runRest
      exact ⟨known₂, ends₂, List.forall_mem_cons.2 ⟨knownFirst.inside, types⟩⟩
    · exact ⟨known₁, ends₁, List.forall_mem_cons.2 ⟨knownFirst.inside, nofun⟩⟩

theorem elaborateBody_known {body : List Expr} (written : ∀ e ∈ body, V.exprs e)
    (h : elaborateBody elaborate here body s = some (l, s')) : s'.Known cx V ∧ l.Known V := by
  rcases elaborateBody_steps h with ⟨-, rfl, rfl⟩ | ⟨-, parts, ends, run, rfl⟩
  · exact ⟨known, elaborated_nil_known⟩
  · obtain ⟨known', ends', types⟩ := elaborateParts_known knowing place known
      (Completions.ofNormal_all .nil) written run
    exact ⟨known', ends', ofParts_ty parts _, .ofParts ends'.normal types⟩

end Sequences

section Leaves

include covers place known

omit knowing in
theorem elaborateRead_known {e : Expr} {v : Variable} (written : V.exprs e)
    (form : e.form = .read v) (h : elaborateRead cx here e.span v s = some (l, s')) :
    s'.Known cx V ∧ l.Known V := by
  have name := covers.read e v written form
  rcases elaborateRead_steps h with ⟨-, rfl, rfl⟩ | ⟨e, placed, rfl, rfl⟩ | ⟨-, c, object, rfl, rfl⟩ |
    ⟨-, rfl, rfl⟩ | ⟨-, named, rfl, rfl⟩ | ⟨-, rfl, rfl⟩
  · have scope := place.scopeVar v.name
    have tables : (readLocal cx here.activation v.name s).tables.Known cx V := by
      simp only [readLocal]
      split
      · exact known.tables
      · exact known.tables.extendVar scope name .nil
    refine ⟨{ known with tables, slots := known.slots.lookedUp scope _ },
      ofNode_known (Completions.ofNormal_all ?_) (by rintro _ ⟨⟩)⟩
    cases found : (readLocal cx here.activation v.name s).tables.var?
        ⟨(here.activation.scopeOf cx.captures v.name).1, v.name⟩ with
    | none => exact .nil
    | some t => exact tables.vars.lookup found
  · exact ⟨known.withError placed, failed_known⟩
  · refine ⟨known, ofNode_known (Completions.ofNormal_all ?_) (by rintro _ ⟨⟩)⟩
    rw [instanceTy]
    split
    · rename_i t found
      exact known.tables.withLayouts (known.tables.instanceVar found).known
    · exact .nil
  · refine ⟨known, ofNode_known (Completions.ofNormal_all ?_) (by rintro _ ⟨⟩)⟩
    cases found : s'.tables.globals.lookup v.name with
    | none => exact .nil
    | some t => exact known.tables.globals.lookup found
  · exact ⟨known, ofNode_known (Completions.ofNormal_all (.simple (covers.classes _ named))) (by rintro _ ⟨⟩)⟩
  · refine ⟨known, ofNode_known (Completions.ofNormal_all ?_) (by rintro _ ⟨⟩)⟩
    cases found : s'.tables.constants.lookup v.name with
    | none => exact .nil
    | some t => exact known.tables.constants.lookup found

include knowing

theorem elaborateAssignment_known {e : Expr} {v : Variable} {span : Span} {value : Expr}
    (written : V.exprs e) (form : e.form = .assign v span value)
    (h : elaborateAssignment cx elaborate here e.span v value s = some (l, s')) :
    s'.Known cx V ∧ l.Known V := by
  have name := covers.assigned e v span value written form
  have inner := covers.parts e written value (by simp [Expr.parts, form, Form.parts])
  obtain ⟨first, s₁, run, rest⟩ := elaborateAssignment_steps h
  obtain ⟨known₁, knownFirst⟩ := knowing _ _ _ _ _ inner place known run
  rcases rest with ⟨-, rfl, rfl⟩ | ⟨t, normal, rest⟩
  · exact ⟨known₁, knownFirst⟩
  · have type := knownFirst.ends.normal t normal
    have alone : ∀ d ∈ [first.code], d.AllTypes (Ty.Known V) :=
      List.forall_mem_singleton.2 knownFirst.inside
    rcases rest with ⟨-, rfl, rfl⟩ | ⟨-, -, rfl, rfl⟩ | ⟨-, c, object, rfl, rfl⟩ | ⟨-, rfl, rfl⟩ |
      ⟨-, rfl, rfl⟩
    · have scope := place.scopeVar v.name
      exact ⟨{ known₁ with
        tables := known₁.tables.extendVar scope name type
        slots := known₁.slots.lookedUp scope _
        assigned := known₁.marked scope }, ofNode_known knownFirst.ends alone⟩
    · exact ⟨known₁.withError rfl, failed_known⟩
    · have className := place.objectClass object
      exact ⟨known₁.withTables (known₁.tables.extendLayout className name type),
        ofNode_known knownFirst.ends alone⟩
    · exact ⟨known₁.withTables (known₁.tables.extendGlobal name type),
        ofNode_known knownFirst.ends alone⟩
    · exact ⟨known₁.withTables (known₁.tables.extendConstant name type),
        ofNode_known knownFirst.ends alone⟩

end Leaves

section Control

include knowing place known

theorem elaborateExit_known {e : Expr} {keyword : String} {value : Option Expr}
    (written : ∀ d ∈ value, V.exprs d)
    (h : elaborateExit cx elaborate here e.id e.span keyword value s = some (l, s')) :
    s'.Known cx V ∧ l.Known V := by
  obtain ⟨first, s₁, run, rest⟩ := elaborateExit_steps h
  have valueKnown : s₁.Known cx V ∧ first.Known V := by
    cases value with
    | none =>
      obtain ⟨rfl, rfl⟩ := pure_eq_some.1 run
      exact ⟨known, elaborated_nil_known⟩
    | some d => exact knowing _ _ _ _ _ (written d rfl) place known run
  obtain ⟨known₁, knownFirst⟩ := valueKnown
  have alone : ∀ d ∈ [first.code], d.AllTypes (Ty.Known V) :=
    List.forall_mem_singleton.2 knownFirst.inside
  rcases rest with ⟨-, rfl, rfl⟩ | ⟨t, normal, ⟨f, -, rfl, rfl⟩ | ⟨b, -, rfl, rfl⟩ | ⟨-, rfl, rfl⟩⟩
  · exact ⟨known₁, knownFirst⟩
  · exact ⟨known₁, ofNode_known (knownFirst.ends.dropNormal.addReturn (fun _ _ => Ty.Known.join) f
      (knownFirst.ends.normal t normal)) alone⟩
  · exact ⟨known₁, ofNode_known (knownFirst.ends.dropNormal.addBreak (fun _ _ => Ty.Known.join) b
      (knownFirst.ends.normal t normal)) alone⟩
  · exact ⟨known₁.withError rfl, failed_known⟩

theorem elaborateNot_known {operand : Expr} (written : V.exprs operand)
    (h : elaborateNot elaborate here operand s = some (l, s')) : s'.Known cx V ∧ l.Known V := by
  obtain ⟨first, run, ⟨-, rfl⟩ | ⟨-, rfl⟩⟩ := elaborateNot_steps h
  · exact knowing _ _ _ _ _ written place known run
  · obtain ⟨known', knownFirst⟩ := knowing _ _ _ _ _ written place known run
    exact ⟨known', ofNode_known (knownFirst.ends.dropNormal.addNormal (fun _ _ => Ty.Known.join)
      .bool) (List.forall_mem_singleton.2 knownFirst.inside)⟩

omit knowing place known in
/-- What is assigned on all paths is assigned before them or on one of them. -/
theorem assignedAfter_all {P : ScopeVar → Prop} {before : List ScopeVar}
    (paths : List (Bool × List ScopeVar)) (start : ∀ k ∈ before, P k)
    (each : ∀ p ∈ paths, ∀ k ∈ p.2, P k) : ∀ k ∈ assignedAfter before paths, P k := by
  have shrinks (rest : List (List ScopeVar)) (first : List ScopeVar) :
      ∀ k ∈ rest.foldl (fun all keys => all.filter fun k => keys.any (· == k)) first,
        k ∈ first := by
    induction rest generalizing first with
    | nil => exact fun k member => member
    | cons keys rest ih => exact fun k member => (List.mem_filter.1 (ih _ k member)).1
  rw [assignedAfter]
  split
  · exact start
  · rename_i first rest falling
    intro k member
    have inside : first ∈ (paths.filter (·.1)).map (·.2) := falling ▸ List.mem_cons_self
    obtain ⟨p, there, rfl⟩ := List.mem_map.1 inside
    exact each p (List.mem_filter.1 there).1 k (shrinks rest p.2 k member)

theorem elaborateConditional_known {kind : ConditionKind} {condition : Expr}
    {consequent : List Expr} {alternative : Option (List Expr)} (written : V.exprs condition)
    (first : ∀ d ∈ consequent, V.exprs d) (second : ∀ d ∈ alternative.getD [], V.exprs d)
    (h : elaborateConditional elaborate here kind condition consequent alternative s =
      some (l, s')) : s'.Known cx V ∧ l.Known V := by
  obtain ⟨c, s₁, run, rest⟩ := elaborateConditional_steps h
  obtain ⟨known₁, knownCondition⟩ := knowing _ _ _ _ _ written place known run
  rcases rest with ⟨-, rfl, rfl⟩ | ⟨-, yes, s₂, no, s₃, runFirst, runSecond, rfl, rfl⟩
  · exact ⟨known₁, knownCondition⟩
  · obtain ⟨known₂, knownYes⟩ := elaborateBody_known knowing place known₁ first runFirst
    obtain ⟨known₃, knownNo⟩ := elaborateBody_known knowing place
      (known₂.withAssigned known₁.assigned) second runSecond
    refine ⟨known₃.withAssigned (assignedAfter_all _ known₁.assigned ?_), ofNode_known ?_ ?_⟩
    · exact List.forall_mem_cons.2 ⟨known₂.assigned,
        List.forall_mem_cons.2 ⟨known₃.assigned, nofun⟩⟩
    · have closed := fun t u => Ty.Known.join (V := V) (t := t) (u := u)
      cases kind
      · exact (knownCondition.ends.dropNormal.join closed knownYes.ends).join closed knownNo.ends
      · exact (knownCondition.ends.dropNormal.join closed knownNo.ends).join closed knownYes.ends
    · have each := And.intro knownCondition.inside (And.intro knownYes.inside knownNo.inside)
      cases kind <;> simp [Typed.Node.parts, Typed.Node.operands, Typed.Node.landing?, branches, each]

theorem elaborateWhile_known {id : NodeId} {condition : Expr} {body : List Expr}
    (written : V.exprs condition) (inside : ∀ d ∈ body, V.exprs d)
    (h : elaborateWhile elaborate here id condition body s = some (l, s')) :
    s'.Known cx V ∧ l.Known V := by
  obtain ⟨c, s₁, run, rest⟩ := elaborateWhile_steps h
  obtain ⟨known₁, knownCondition⟩ := knowing _ _ _ _ _ written place known run
  rcases rest with ⟨-, rfl, rfl⟩ | ⟨-, b, s₂, runBody, rfl, rfl⟩
  · exact ⟨known₁, knownCondition⟩
  · have counted : ({ s₁ with nextLoop := s₁.nextLoop + 1 } : PassState).Known cx V :=
      { known₁ with }
    obtain ⟨known₂, knownBody⟩ := elaborateBody_known knowing (place.inLoop id ⟨s₁.nextLoop⟩)
      counted inside runBody
    have closed := fun t u => Ty.Known.join (V := V) (t := t) (u := u)
    refine ⟨known₂.withAssigned known₁.assigned, ofNode_known
      (knownCondition.ends.dropNormal.join closed (knownBody.ends.throughLoop closed _ _ .nil)) ?_⟩
    exact List.forall_mem_cons.2
      ⟨knownCondition.inside, List.forall_mem_singleton.2 knownBody.inside⟩

theorem elaborateLogical_known {connective : Connective} {left right : Expr}
    (written : V.exprs left) (other : V.exprs right)
    (h : elaborateLogical elaborate here connective left right s = some (l, s')) :
    s'.Known cx V ∧ l.Known V := by
  obtain ⟨first, s₁, run, rest⟩ := elaborateLogical_steps h
  obtain ⟨known₁, knownFirst⟩ := knowing _ _ _ _ _ written place known run
  rcases rest with ⟨-, rfl, rfl⟩ | ⟨t, second, s₂, normal, runRight, rfl, rfl⟩
  · exact ⟨known₁, knownFirst⟩
  · obtain ⟨known₂, knownSecond⟩ := knowing _ _ _ _ _ other place known₁ runRight
    have closed := fun t u => Ty.Known.join (V := V) (t := t) (u := u)
    refine ⟨known₂.withAssigned known₁.assigned, ofNode_known ?_ ?_⟩
    · exact (knownFirst.ends.dropNormal.join closed knownSecond.ends).joinNormal closed
        fun u same => Option.some.inj same ▸ knownFirst.ends.normal t normal
    · cases connective <;> exact List.forall_mem_cons.2
        ⟨knownFirst.inside, List.forall_mem_singleton.2 knownSecond.inside⟩

end Control

section Calls

variable {call : CallSyntax} {arguments : List Typed.Expr} {types : List Ty}

/-- A method that dispatch has chosen is called with known types, as many as it has parameters. -/
theorem calledKey_known (consistent : cx.definitions.Consistent) {receiverType : Ty}
    {id : MethodId} {m : MethodEntry} (each : ∀ t ∈ receiverType :: types, t.Known V)
    (callee : calleeFor? cx call receiverType types = some (.method id))
    (found : cx.definitions.method? id = some m) :
    cx.definitions.method? m.id = some m ∧ (calledKey m receiverType types).Known cx V := by
  obtain ⟨n, found', applicable, -⟩ := Definitions.dispatch?_method consistent callee
  cases found.symm.trans found'
  rw [List.forall_mem_cons] at each
  have itself : cx.definitions.method? m.id = some m := by rwa [consistent.method?_id found]
  refine ⟨itself, ?_, each.2, m, itself, Definitions.arity_of_applicable applicable⟩
  rw [calledKey]
  dsimp only
  split
  · exact each.1
  · exact .simple trivial

include covers knowing known

omit covers knowing in
/-- A method that is admitted was not there before, under any key that is the same. -/
theorem enteredMethod_known {key : Instantiation} (callee : key.Known cx V)
    (absent : s.instances.lookup key = none) (shallow : PathKnown cx V cx.limits.maxInlineDepth
      [.instance key]) : (enteredMethod key s).Known cx V := by
  have self : ScopeVar.Known cx V ⟨[.instance key], "self"⟩ := shallow
  refine { known with
    instances := ⟨fun e member => ?_, ?_⟩, slots := FrameSlots.Keyed.empty.selfBound self _
    methods := fun o member => ?_ }
  · rcases List.mem_append.1 member with old | last
    · exact known.instances.each e old
    · exact List.mem_singleton.1 last ▸ ⟨callee, trivial⟩
  · refine List.pairwise_append.2 ⟨known.instances.apart, List.pairwise_singleton _ _, ?_⟩
    intro e old f last same
    cases List.mem_singleton.1 last
    have turned : (key == e.1) = true := by
      rw [Instantiation.beq_iff callee.proper (known.instances.each e old).1.proper]
      exact ((Instantiation.beq_iff (known.instances.each e old).1.proper
        callee.proper).1 same).symm
    have differs := List.lookup_eq_none_iff.1 absent e old
    rw [bne, turned] at differs
    cases differs
  · rcases Array.mem_push.1 member with old | rfl
    · exact known.methods o old
    · nofun

omit covers knowing in
theorem enteredExpansion_known {key : Instantiation}
    (scope : PathKnown cx V cx.limits.maxInlineDepth (expansionPath here call key)) :
    (enteredExpansion here call key s).Known cx V :=
  { known.withoutAssigned _ with slots := known.slots.selfBound scope _ }

theorem elaborateMethod_known_types {depth : Nat} (shallow : depth ≤ cx.limits.maxInlineDepth)
    {key : Instantiation} (callee : key.Known cx V) {id : InstanceId}
    (h : elaborateMethod cx elaborate depth key s = some (id, s')) : s'.Known cx V := by
  rcases elaborateMethod_steps h with ⟨-, rfl⟩ | ⟨absent, -, ⟨missing, rfl⟩ | ⟨m, parameters, s₁,
    body, s₂, found, bound, run, rfl⟩⟩
  · exact known
  · obtain ⟨m, found, -⟩ := callee.arity
    rw [missing] at found
    cases found
  · have placeBody := methodPlace_known callee m shallow s
    have path := placeBody.activation.path.mono shallow
    obtain ⟨names, written⟩ := covers.methods _ _ found
    have known₁ := PassState.Known.bindVars path (enteredMethod_known known callee absent path)
      names callee.arguments bound
    obtain ⟨known₂, knownBody⟩ := elaborateBody_known knowing placeBody known₁ written run
    refine { known₂ with
      tables := known₂.tables.extendResult callee
        (knownBody.ends.methodResult (fun _ _ => Ty.Known.join) _)
      slots := known.slots
      methods := fun o member => ?_ }
    rcases Array.mem_or_eq_of_mem_setIfInBounds member with old | rfl
    · exact known₂.methods o old
    · rintro m ⟨⟩
      exact knownBody.inside

include place

theorem expandCall_known {m : MethodEntry} {key : Instantiation} {block : Block}
    {receiver : Typed.Expr} (site : V.nodes call.id) (written : BlockKnown V block)
    (callee : key.Known cx V) (found : cx.definitions.method? key.method = some m)
    (h : expandCall cx elaborate here call m key block receiver arguments s = some (l, s')) :
    s'.Known cx V ∧
      ((∀ c ∈ receiver :: arguments, c.AllTypes (Ty.Known V)) → l.Known V) := by
  rcases expandCall_steps h with ⟨-, rfl, rfl⟩ | ⟨shallow, parameters, s₁, body, s₂, bound, run,
    rfl, rfl⟩
  · exact ⟨known.withError rfl, fun _ => failed_known⟩
  · have placeBody := expansionPlace_known place site callee written shallow m s
    have scope := placeBody.activation.path.mono placeBody.depth
    obtain ⟨names, inside⟩ := covers.methods _ _ found
    have known₁ := PassState.Known.bindVars scope (enteredExpansion_known known scope) names
      callee.arguments bound
    obtain ⟨known₂, knownBody⟩ := elaborateBody_known knowing placeBody known₁ inside run
    refine ⟨known₂.withAssigned ?_, fun sent => ofNode_known
      (knownBody.ends.throughCall (fun _ _ => Ty.Known.join) _ _) fun d member => ?_⟩
    · split
      · exact known.assigned
      · exact known₂.assigned
    · rcases List.mem_append.1 member with operand | only
      · exact sent d operand
      · exact List.mem_singleton.1 only ▸ knownBody.inside

variable (consistent : cx.definitions.Consistent)

include consistent

theorem elaborateConstruct_known {c : String} (className : V.classes c)
    (known' : ∀ t ∈ types, t.Known V) (sent : ∀ c ∈ arguments, c.AllTypes (Ty.Known V))
    (h : elaborateConstruct cx elaborate here call c arguments types s = some (l, s')) :
    s'.Known cx V ∧ l.Known V := by
  have parts (initializer : Option InstanceId) :
      ∀ d ∈ (Typed.Node.construct c initializer arguments).parts, d.AllTypes (Ty.Known V) :=
    fun d member => sent d (by simpa [Typed.Node.parts, Typed.Node.operands, Typed.Node.landing?]
      using member)
  rcases elaborateConstruct_steps h with ⟨id, instanceId, chosen, made, rfl⟩ |
    ⟨-, ⟨-, rfl, rfl⟩ | ⟨-, rfl, rfl⟩⟩
  · have callee : Instantiation.Known cx V ⟨id, s.tables.objectTy c, types⟩ :=
      ⟨known.tables.objectTy className, known', initializer?_callable consistent chosen⟩
    have after := elaborateMethod_known_types covers knowing known place.depth callee made
    refine ⟨after, ofNode_known ?_ (parts _)⟩
    split
    · exact Completions.ofNormal_all (after.tables.objectTy className)
    · exact Completions.never_all
  · exact ⟨known, ofNode_known (Completions.ofNormal_all (known.tables.objectTy className))
      (parts _)⟩
  · exact ⟨known.withError rfl, failed_known⟩

theorem elaborateArm_known {operands : List Typed.Expr} (site : V.nodes call.id)
    (written : ∀ b ∈ call.block, BlockKnown V b) (each : ∀ t ∈ types, t.Known V)
    (sent : ∀ c ∈ operands, c.AllTypes (Ty.Known V))
    (h : elaborateArm cx elaborate here call operands types s = some (l, s')) :
    s'.Known cx V ∧ l.Known V := by
  rcases elaborateArm_steps h with ⟨e, placed, rfl, rfl⟩ | ⟨receiverType, argumentTypes, rfl, rest⟩
  · exact ⟨known.withError placed, failed_known⟩
  · rw [List.forall_mem_cons] at each
    have rest' : ∀ c ∈ operands.drop 1, c.AllTypes (Ty.Known V) :=
      fun c member => sent c (List.mem_of_mem_drop member)
    have receiver : (operands.headD Typed.Expr.nil).AllTypes (Ty.Known V) := by
      cases operands with
      | nil => exact elaborated_nil_known.inside
      | cons c operands => exact sent c List.mem_cons_self
    rcases rest with ⟨p, -, rfl, rfl⟩ | ⟨c, callee, made⟩ | ⟨lib, name, -, rfl, rfl⟩ |
      ⟨id, m, callee, found, called⟩
    · refine ⟨known, ofNode_known (Completions.ofNormal_all (resultTy_known p _ _)) fun d member => ?_⟩
      rw [Typed.Node.parts, List.mem_append] at member
      exact List.forall_mem_cons.2 ⟨receiver, rest'⟩ d (member.resolve_right List.not_mem_nil)
    · exact elaborateConstruct_known covers knowing place known consistent
        (covers.classes c (by simp [Definitions.dispatch?_construct callee])) each.2 rest' made
    · refine ⟨known, ofNode_known ?_ fun d member => ?_⟩
      · rw [foreignEnds]
        split
        · rename_i t result
          obtain ⟨f, declared, type⟩ := Option.bind_eq_some_iff.1 result
          exact Completions.ofNormal_all (covers.results _ _ _ _ declared type)
        · exact Completions.never_all
      · rw [Typed.Node.parts, List.mem_append] at member
        exact rest' d (member.resolve_right List.not_mem_nil)
    · obtain ⟨itself, key⟩ :=
        calledKey_known consistent (List.forall_mem_cons.2 each) callee found
      have called' : ∀ c ∈ calledReceiver m (operands.headD Typed.Expr.nil) :: operands.drop 1,
          c.AllTypes (Ty.Known V) := by
        refine List.forall_mem_cons.2 ⟨?_, rest'⟩
        rw [calledReceiver]
        split
        · exact receiver
        · exact .intro (fun t same => Option.some.inj same ▸ .simple trivial) (by rintro _ ⟨⟩)
      rcases elaborateMethodCall_steps called with ⟨-, block, given, expanded⟩ | ⟨-, -, rfl, rfl⟩ |
        ⟨-, id', made, rfl⟩
      · exact (expandCall_known covers knowing place known site (written block given) key
          itself expanded).imp_right fun types => types called'
      · exact ⟨known.withError rfl, failed_known⟩
      · have after := elaborateMethod_known_types covers knowing known place.depth key made
        refine ⟨after, ofNode_known ?_ fun d member => ?_⟩
        · split
          · rename_i t result
            exact Completions.ofNormal_all (after.tables.result result)
          · exact Completions.never_all
        · rw [Typed.Node.parts, List.mem_append] at member
          exact called' d (member.resolve_right List.not_mem_nil)

omit covers knowing place known consistent in
/-- The operands of an arm have the types of the arm. -/
theorem armOperands_known {temps : List SlotId} (each : ∀ t ∈ types, t.Known V) :
    ∀ c ∈ armOperands temps types, c.AllTypes (Ty.Known V) := by
  intro c member
  obtain ⟨⟨slot, t⟩, there, rfl⟩ := List.mem_map.1 member
  exact .intro (fun u same => Option.some.inj same ▸ each t (List.of_mem_zip there).2) nofun

theorem elaborateArms_known {temps : List SlotId} {before : List ScopeVar}
    {choices : List (List Ty)} {arms : List (Typed.Arm × Completions × List ScopeVar)}
    (site : V.nodes call.id) (written : ∀ b ∈ call.block, BlockKnown V b)
    (start : ∀ k ∈ before, k.Known cx V) (each : ∀ ts ∈ choices, ∀ t ∈ ts, t.Known V)
    (h : elaborateArms cx elaborate here call temps before choices s = some (arms, s')) :
    s'.Known cx V ∧ ∀ arm ∈ arms, arm.2.1.All (Ty.Known V) ∧ (∀ k ∈ arm.2.2, k.Known cx V) ∧
      arm.1.body.AllTypes (Ty.Known V) := by
  induction choices generalizing s arms with
  | nil =>
    obtain ⟨rfl, rfl⟩ := elaborateArms_nil_steps h
    exact ⟨known, nofun⟩
  | cons types rest ih =>
    obtain ⟨arm, s₁, others, run, runRest, rfl⟩ := elaborateArms_cons_steps h
    rw [List.forall_mem_cons] at each
    obtain ⟨known₁, knownArm⟩ := elaborateArm_known covers knowing place
      (known.withAssigned start) consistent site written each.1 (armOperands_known each.1) run
    obtain ⟨known₂, knownOthers⟩ := ih known₁ each.2 runRest
    exact ⟨known₂, List.forall_mem_cons.2
      ⟨⟨knownArm.ends, known₁.assigned, knownArm.inside⟩, knownOthers⟩⟩

omit covers knowing place known consistent in
/-- The arms of a call are for members of the types of its operands. -/
theorem armsWithin_known {most : Nat} {chosen : List (List Ty)} (each : ∀ t ∈ types, t.Known V)
    (expanded : armsWithin most types = .ok chosen) : ∀ ts ∈ chosen, ∀ t ∈ ts, t.Known V := by
  rw [armsWithin_ok expanded]
  refine mem_choices (List.forall_mem_map.2 fun t member m inside => ?_)
  exact (each t member).member inside

theorem elaborateDispatch_known {operands : List Typed.Expr} (site : V.nodes call.id)
    (written : ∀ b ∈ call.block, BlockKnown V b) (each : ∀ t ∈ types, t.Known V)
    (sent : ∀ c ∈ operands, c.AllTypes (Ty.Known V))
    (h : elaborateDispatch cx elaborate here call operands types s = some (l, s')) :
    s'.Known cx V ∧ l.Known V := by
  rcases elaborateDispatch_steps h with ⟨-, single⟩ | ⟨-, ⟨n, -, rfl, rfl⟩ | ⟨chosen, temps, s₁,
    arms, s₂, expanded, made, run, rfl, rfl⟩⟩
  · exact elaborateArm_known covers knowing place known consistent site written each sent single
  · exact ⟨known.withError rfl, failed_known⟩
  · have known₁ := PassState.Known.tempSlots known made
    obtain ⟨known₂, knownArms⟩ := elaborateArms_known covers knowing place known₁ consistent site
      written known₁.assigned (armsWithin_known each expanded) run
    refine ⟨known₂.withAssigned (assignedAfter_all _ known₁.assigned ?_), ofNode_known ?_
      fun d member => ?_⟩
    · exact List.forall_mem_map.2 fun arm member => (knownArms arm member).2.1
    · refine List.foldlRecOn arms _ Completions.never_all fun ends all arm member => ?_
      exact all.join (fun _ _ => Ty.Known.join) (knownArms arm member).1
    · rw [Typed.Node.parts, List.mem_append] at member
      rcases List.mem_append.1 (member.resolve_right List.not_mem_nil) with operand | body
      · exact sent d operand
      · rw [List.map_map] at body
        obtain ⟨arm, listed, rfl⟩ := List.mem_map.1 body
        exact (knownArms arm listed).2.2

omit covers knowing known consistent in
theorem sentOperands_known {receiver : Option Expr} {codes : List Typed.Expr}
    (types : ∀ c ∈ codes, c.AllTypes (Ty.Known V)) :
    ∀ c ∈ sentOperands here receiver codes, c.AllTypes (Ty.Known V) := by
  rw [sentOperands]
  split
  · refine List.forall_mem_cons.2 ⟨.intro (fun t same => ?_) nofun, types⟩
    exact Option.some.inj same ▸ place.activation.selfType
  · exact types

theorem elaborateCall_known {e : Expr} {receiver : Option Expr} {name : String} {nameSpan : Span}
    {written : List Expr} {block : Option Block} (inside : V.exprs e)
    (form : e.form = .call receiver name nameSpan written block)
    (h : elaborateCall cx elaborate here e.id receiver name nameSpan written block s =
      some (l, s')) : s'.Known cx V ∧ l.Known V := by
  obtain ⟨site, blocks⟩ := covers.calls e receiver name nameSpan written block inside form
  have parts : ∀ d ∈ e.parts, V.exprs d := covers.parts e inside
  simp only [Expr.parts, form, Form.parts, List.mem_append] at parts
  obtain ⟨codes, ends, s₁, run, rest⟩ := elaborateCall_steps h
  obtain ⟨known₁, knownEnds, types⟩ := elaborateParts_known knowing place known
    (Completions.ofNormal_all .nil) (fun d member => parts d (.inl (List.mem_append.1 member))) run
  rcases rest with ⟨stops, rfl, rfl⟩ | ⟨falls, sent, runSent, rfl⟩
  · exact ⟨known₁, stopped_known knownEnds types stops⟩
  · have sentKnown : ∀ c ∈ sentOperands here receiver codes, c.AllTypes (Ty.Known V) :=
      sentOperands_known place types
    have sentTypes : ∀ t ∈ (sentOperands here receiver codes).filterMap (·.ty), t.Known V := by
      intro t member
      obtain ⟨c, there, type⟩ := List.mem_filterMap.1 member
      exact (sentKnown c there).own t type
    have blockKnown : ∀ b ∈ block, BlockKnown V b := by
      rintro b rfl
      exact ⟨(blocks b rfl).1, (blocks b rfl).2, fun d member => parts d (.inr member)⟩
    obtain ⟨known₂, knownSent⟩ := elaborateDispatch_known covers knowing place known₁ consistent
      site blockKnown sentTypes sentKnown runSent
    refine ⟨known₂, knownEnds.andThen (fun _ _ => Ty.Known.join) knownSent.ends, ?_,
      knownSent.inside⟩
    rw [knownSent.typed]
    exact (Completions.andThen_normal _ falls).symm

omit consistent covers in
theorem elaborateYield_known {span : Span} {written : List Expr}
    (inside : ∀ d ∈ written, V.exprs d)
    (h : elaborateYield elaborate here span written s = some (l, s')) :
    s'.Known cx V ∧ l.Known V := by
  obtain ⟨parts, ends, s₁, run, rest⟩ := elaborateYield_steps h
  obtain ⟨known₁, knownEnds, types⟩ := elaborateParts_known knowing place known
    (Completions.ofNormal_all .nil) inside run
  rcases rest with ⟨stops, rfl, rfl⟩ | ⟨-, ⟨block, site, definer, parameters, s₂, body, origin,
    bound, runBody, rfl⟩ | ⟨e, placed, rfl, rfl⟩⟩
  · exact ⟨known₁, stopped_known knownEnds types stops⟩
  · obtain ⟨blockKnown, standing⟩ := place.activation.yielded origin
    have placeBody : Place.Known cx V ⟨blockContext block site definer, here.depth⟩ :=
      ⟨standing, place.depth⟩
    have known₂ := PassState.Known.bindYielded (standing.path.mono place.depth)
      (known₁.withoutAssigned _) blockKnown.parameters (fun c member => (types c member).own) bound
    obtain ⟨known₃, knownBody⟩ := elaborateBody_known knowing placeBody known₂ blockKnown.body
      runBody
    refine ⟨known₃, ofNode_known (knownEnds.andThen (fun _ _ => Ty.Known.join) knownBody.ends)
      fun d member => ?_⟩
    rw [Typed.Node.parts, List.mem_append] at member
    rcases List.mem_append.1 (member.resolve_right List.not_mem_nil) with argument | only
    · exact types d argument
    · exact List.mem_singleton.1 only ▸ knownBody.inside
  · exact ⟨known₁.withError placed, failed_known⟩

end Calls

end Constructs

/-- Each construct keeps to the vocabulary, given that its parts do. -/
theorem elaborateForm_knowing (covers : V.Covers cx) (consistent : cx.definitions.Consistent)
    (knowing : elaborate.Knowing cx V) : Elaborate.Knowing cx V (elaborateForm cx elaborate) := by
  intro here e s l s' written place known h
  have parts := covers.parts e written
  simp only [elaborateForm] at h
  cases form : e.form with
  | literal value =>
    simp only [form] at h
    obtain ⟨rfl, rfl⟩ := pure_eq_some.1 h
    refine ⟨known, ofNode_known (Completions.ofNormal_all ?_) (by rintro _ ⟨⟩)⟩
    cases value <;> exact .simple trivial
  | defMethod _ | defClass _ | defLib _ =>
    simp only [form] at h
    obtain ⟨rfl, rfl⟩ := pure_eq_some.1 h
    exact ⟨known, elaborated_nil_known⟩
  | self =>
    simp only [form] at h
    obtain ⟨rfl, rfl⟩ := pure_eq_some.1 h
    exact ⟨known, ofNode_known (Completions.ofNormal_all place.activation.selfType) (by rintro _ ⟨⟩)⟩
  | read v =>
    simp only [form] at h
    exact elaborateRead_known covers place known written form h
  | assign v span value =>
    simp only [form] at h
    exact elaborateAssignment_known covers knowing place known written form h
  | call receiver name nameSpan arguments block =>
    simp only [form] at h
    exact elaborateCall_known covers knowing place known consistent written form h
  | yield arguments =>
    simp only [form] at h
    exact elaborateYield_known knowing place known
      (fun d member => parts d (by simpa [Expr.parts, form, Form.parts] using member)) h
  | «return» value | «break» value =>
    simp only [form] at h
    exact elaborateExit_known knowing place known
      (fun d member => parts d (by simpa [Expr.parts, form, Form.parts] using member)) h
  | conditional kind condition consequent alternative =>
    simp only [form] at h
    simp only [Expr.parts, form, Form.parts, List.cons_append, List.mem_cons, List.mem_append] at parts
    exact elaborateConditional_known knowing place known (parts _ (.inl rfl))
      (fun d member => parts d (.inr (.inl member)))
      (fun d member => parts d (.inr (.inr member))) h
  | «while» condition body =>
    simp only [form] at h
    simp only [Expr.parts, form, Form.parts, List.mem_cons] at parts
    exact elaborateWhile_known knowing place known (parts _ (.inl rfl))
      (fun d member => parts d (.inr member)) h
  | logical connective left right =>
    simp only [form] at h
    simp only [Expr.parts, form, Form.parts, List.mem_cons] at parts
    exact elaborateLogical_known knowing place known (parts _ (.inl rfl))
      (parts _ (.inr (.inl rfl))) h
  | not operand =>
    simp only [form] at h
    exact elaborateNot_known knowing place known
      (parts _ (by simp [Expr.parts, form, Form.parts])) h

theorem elaborateExpr_knowing (covers : V.Covers cx) (consistent : cx.definitions.Consistent)
    (fuel : Nat) : Elaborate.Knowing cx V (elaborateExpr cx fuel) := by
  induction fuel with
  | zero =>
    intro here e s l s' written place known h
    cases h
  | succ fuel ih => exact elaborateForm_knowing covers consistent ih

section Passes

theorem mainPlace_known : mainPlace.Known cx V := by
  refine ⟨⟨⟨fun level member => ?_, ?_⟩, .simple trivial, trivial⟩, Nat.zero_le _⟩
  · cases List.mem_singleton.1 member
    trivial
  · simp

theorem enteredMain_known {ts : Tables} (tables : ts.Known cx V) :
    (enteredMain ts).Known cx V where
  tables := tables
  slots := by
    refine FrameSlots.Keyed.empty.selfBound ?_ _
    have main : mainPlace.Known cx V := mainPlace_known
    exact main.activation.path.mono (Nat.zero_le _)
  instances := .nil
  assigned := nofun
  methods := by simp [enteredMain, PassState.start]
  errors := nofun

/-- A pass from known tables over known statements ends in a known state, with tables that have grown. -/
theorem pass_known {fuel : Nat} {statements : List Expr} (covers : V.Covers cx)
    (consistent : cx.definitions.Consistent) (written : ∀ e ∈ statements, V.exprs e) {ts : Tables}
    (tables : ts.Known cx V) {p : Typed.Program}
    (h : elaborateProgram cx fuel statements (PassState.start ts) = some (p, s)) :
    s.Known cx V ∧ ts.Grows s.tables := by
  obtain ⟨body, run, -⟩ := elaborateProgram_steps h
  obtain ⟨known, -⟩ := elaborateBody_known (elaborateExpr_knowing covers consistent fuel)
    mainPlace_known (enteredMain_known tables) written run
  exact ⟨known, (elaborateBody_grows (elaborateExpr_grows cx fuel) run).tables⟩

end Passes

end TypedBlocks.Inference

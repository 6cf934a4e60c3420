import TypedBlocks.Proofs.ElaboratedTypes
import TypedBlocks.Proofs.TypedPrograms

/-!
# Types of one sort

A sort of types may depend on the layouts of objects, as types that are made from the present
layouts do. If inference cannot leave the sort as long as the layouts stay as they are, then a pass
that ends with the layouts it has started from meets types of the sort alone: tables only grow, so
the layouts were the same all along.
-/
namespace TypedBlocks

open List (forall_mem_nil)

namespace Typed

/-- The types that a node mentions itself. -/
def Node.annotations : Node → List Ty
  | .inline c => c.breakType.toList ++ c.returnType.toList
  | .dispatch _ _ arms => arms.flatMap (·.types)
  | _ => []

/-- The types that an expression mentions itself. -/
def Expr.types (e : Expr) : List Ty := e.ty.toList ++ e.node.annotations

/-- The types that a method mentions outside of its body. -/
def Method.types (m : Method) : List Ty :=
  m.selfType :: (m.returnType.toList ++ m.locals.filterMap (·.ty))

/-- All types that the expression mentions anywhere are of one sort. -/
def Expr.Throughout (P : Ty → Prop) (e : Expr) : Prop := ∀ d, Inside d e → ∀ t ∈ d.types, P t

namespace Expr.Throughout

variable {P : Ty → Prop} {d e : Expr} {ty : Option Ty}

theorem own (all : e.Throughout P) : ∀ t ∈ e.ty, P t :=
  fun t same => all e (.self e) t (List.mem_append_left _ (by simpa using same))

theorem part (all : e.Throughout P) (direct : d ∈ e.node.parts) : d.Throughout P :=
  fun f inside => all f (.part direct inside)

theorem intro (own : ∀ t ∈ e.ty, P t) (annotated : ∀ t ∈ e.node.annotations, P t)
    (parts : ∀ d ∈ e.node.parts, d.Throughout P) : e.Throughout P := by
  intro d inside
  cases inside with
  | self =>
    intro t member
    rcases List.mem_append.1 member with type | annotation
    · exact own t (by simpa using type)
    · exact annotated t annotation
  | part direct inside => exact parts _ direct d inside

/-- A sequence of expressions adds a type of its own. -/
theorem ofParts {es : List Expr} (own : ∀ t ∈ ty, P t) (each : ∀ e ∈ es, e.Throughout P) :
    (Expr.ofParts es ty).Throughout P := by
  unfold Expr.ofParts
  split
  · rename_i only
    have all := each only List.mem_cons_self
    refine intro own (fun t member => ?_) fun d direct => all.part direct
    exact all only (.self only) t (List.mem_append_right _ member)
  · refine intro own (forall_mem_nil _) fun d direct => each d ?_
    simpa [Node.parts, Node.operands, Node.landing?] using direct

end Expr.Throughout

end Typed

namespace Inference

open Typed (InstanceId SlotId Slot)
open Pass

section Definitions

variable (L : List (String × List (String × Ty))) (P : Ty → Prop)

/-- No object binds a variable twice, and all types are reduced. -/
def ReducedLayouts : Prop := ∀ e ∈ L, (e.2.map (·.1)).Nodup ∧ ∀ v ∈ e.2, v.2.Reduced

/-- Inference of the program cannot leave the sort as long as the layouts are `L`. -/
structure Closed (cx : Setting) : Prop where
  simple : ∀ s, P (.simple s)
  join : ∀ t u, P t → P u → P (t.join u)
  member : ∀ t, P t → ∀ m ∈ t.members, P m
  object : ∀ ts : Tables, ts.layouts = L → ∀ c, P (ts.objectTy c)
  instanceVar : ∀ ts : Tables, ts.layouts = L → ∀ c name, P (instanceTy ts c name)
  foreign : ∀ lib name f t, cx.definitions.foreign? lib name = some f → f.resultTy? = some t → P t

/-- All types but those of the layouts. -/
structure Tables.OfSort (ts : Tables) : Prop where
  vars : ∀ e ∈ ts.vars, P e.2
  methods : ∀ e ∈ ts.methods, ∀ t ∈ e.2, P t
  globals : ∀ e ∈ ts.globals, P e.2
  constants : ∀ e ∈ ts.constants, P e.2

def FrameSlots.OfSort (f : FrameSlots) : Prop := ∀ e ∈ f.slots, ∀ t ∈ e.1.ty, P t

/-- The layouts are `L`, and all types that the pass has met since it started are of the sort. -/
structure PassState.OfSort (s : PassState) : Prop where
  layouts : s.tables.layouts = L
  tables : s.tables.OfSort P
  slots : s.frame.OfSort P
  methods : ∀ o ∈ s.methods, ∀ m ∈ o, (∀ t ∈ m.types, P t) ∧ m.body.Throughout P

mutual

/-- The type of `self`, also in the bodies around a block. -/
def BodyContext.OfSort : BodyContext → Prop
  | ⟨_, _, selfType, _, _, origin⟩ => P selfType ∧ origin.OfSort

def Origin.OfSort : Origin → Prop
  | .body => True
  | .expansion _ _ definer | .block _ definer => definer.OfSort

end

structure Elaborated.OfSort (l : Elaborated) : Prop where
  ends : l.ends.All P
  inside : l.code.Throughout P

/-- An elaboration that does not leave the sort unless it changes the layouts. -/
def Elaborate.Keeping (elaborate : Elaborate) : Prop :=
  ∀ here e s l s', here.activation.OfSort P → s.OfSort L P →
    elaborate here e s = some (l, s') → s'.tables.layouts = L → s'.OfSort L P ∧ l.OfSort P

end Definitions

variable {L : List (String × List (String × Ty))} {P : Ty → Prop}

section Contexts

namespace BodyContext.OfSort

theorem selfType {a : BodyContext} (sorted : a.OfSort P) : P a.selfType := by
  cases a
  exact sorted.1

theorem withTarget {a : BodyContext} (sorted : a.OfSort P) (exit : ExitTarget)
    (run : RunTarget) : (a.withTarget exit run).OfSort P := by
  cases a
  exact sorted

theorem methodBody : {a : BodyContext} → a.OfSort P → a.methodBody.OfSort P
  | ⟨_, _, _, _, _, .body⟩, sorted => sorted
  | ⟨_, _, _, _, _, .expansion _ _ _⟩, sorted => sorted
  | ⟨_, _, _, _, _, .block _ definer⟩, sorted =>
    have outer : definer.OfSort P := sorted.2
    (methodBody outer : definer.methodBody.OfSort P)

/-- A block runs where it stands. -/
theorem yielded {a definer : BodyContext} {block : Block} {site : SiteId} (sorted : a.OfSort P)
    (origin : a.methodBody.origin = .expansion block site definer) :
    (blockContext block site definer).OfSort P := by
  have body := sorted.methodBody
  rcases hb : a.methodBody with ⟨path, name, selfType, selfSlot, targets, o⟩
  rw [hb] at body origin
  cases origin
  have outer : definer.OfSort P := body.2
  exact ⟨outer.selfType, outer⟩

end BodyContext.OfSort

end Contexts

section States

variable {cx : Setting} {t : Ty} {s s₁ s' : PassState}

namespace FrameSlots.OfSort

variable {f : FrameSlots} (sorted : f.OfSort P)

include sorted

theorem slotFor (key : ScopeVar) : (f.slotFor key).2.OfSort P := by
  rw [FrameSlots.slotFor]
  split
  · exact sorted
  · intro e member t same
    rcases List.mem_append.1 member with old | last
    · exact sorted e old t same
    · cases List.mem_singleton.1 last
      cases same

theorem update (id : SlotId) {change : Slot → Slot}
    (keeps : ∀ slot : Slot, (∀ t ∈ slot.ty, P t) → ∀ t ∈ (change slot).ty, P t) :
    (f.update id change).OfSort P := by
  intro e member
  obtain ⟨old, there, rfl⟩ := List.mem_map.1 member
  dsimp only
  split
  · exact keeps old.1 (sorted old there)
  · exact sorted old there

theorem tempSlot (type : P t) : (f.tempSlot t).2.OfSort P := by
  intro e member u same
  rcases List.mem_append.1 member with old | last
  · exact sorted e old u same
  · cases List.mem_singleton.1 last
    cases same
    exact type

theorem selfBound (path : ScopeChain) (type : P t) : (selfBound f path t).2.OfSort P :=
  (sorted.slotFor _).update _ fun _ _ _ same => Option.some.inj same ▸ type

theorem lookedUp (key : ScopeVar) (captured : Bool) : (lookedUp f key captured).OfSort P := by
  rw [Pass.lookedUp]
  split
  · exact (sorted.slotFor key).update _ fun _ old => old
  · exact sorted.slotFor key

/-- The types of finished slots come from the slots and from the tables. -/
theorem typedSlots {ts : Tables} (tables : ts.OfSort P) :
    ∀ u ∈ (f.typedSlots ts).filterMap (·.ty), P u := by
  intro u member
  obtain ⟨slot, there, type⟩ := List.mem_filterMap.1 member
  obtain ⟨⟨old, key⟩, inside, rfl⟩ := List.mem_map.1 there
  dsimp only at type
  split at type
  · rename_i w found
    cases type
    obtain ⟨k, -, entry⟩ := Option.bind_eq_some_iff.1 found
    exact lookup_forall tables.vars entry
  · exact sorted _ inside u type

end FrameSlots.OfSort

namespace Tables.OfSort

variable {ts : Tables} (closed : Closed L P cx) (sorted : ts.OfSort P) (type : P t)

include closed sorted

theorem extendVar (key : ScopeVar) (type : P t) : (ts.extendVar key t).OfSort P :=
  { sorted with vars := Completions.extendAt_all closed.join sorted.vars type }

theorem extendGlobal (name : String) (type : P t) : (ts.extendGlobal name t).OfSort P :=
  { sorted with globals := Completions.extendAt_all closed.join sorted.globals type }

theorem extendConstant (name : String) (type : P t) : (ts.extendConstant name t).OfSort P :=
  { sorted with constants := Completions.extendAt_all closed.join sorted.constants type }

theorem extendResult (key : Instantiation) {a : Option Ty} (types : ∀ t ∈ a, P t) :
    (ts.extendResult key a).OfSort P := by
  refine { sorted with methods := fun f member => ?_ }
  rw [Tables.extendResult, extendResultIn_eq] at member
  rcases updateAt_mem f member with rfl | old | ⟨e, there, rfl⟩
  · exact types
  · exact sorted.methods f old
  · exact Ty.mergeOption_all closed.join (sorted.methods e there) types

omit closed in
theorem result {key : Instantiation} (found : ts.result? key = some t) : P t := by
  have entry : ts.methods.lookup key = some (some t) := Option.join_eq_some_iff.1 found
  exact lookup_forall (P := fun a => ∀ t ∈ a, P t) sorted.methods entry t rfl

end Tables.OfSort

namespace PassState.OfSort

variable (sorted : s.OfSort L P)

include sorted

/-- The layouts in between are those of the start and the end. -/
theorem between (reduced : ReducedLayouts L)
    (first : s.Grows s₁) (second : s₁.Grows s') (same : s'.tables.layouts = L) :
    s₁.tables.layouts = L := by
  have grown := first.tables.layouts
  have back := second.tables.layouts
  rw [sorted.layouts] at grown
  rw [same] at back
  exact grown.antisymm back fun e member b there here =>
    there.antisymm here fun v inside w => ((reduced e member).2 v inside).antisymm

theorem withErrors (es : List StaticError) : ({ s with errors := es } : PassState).OfSort L P :=
  { sorted with }

theorem withAssigned (keys : List ScopeVar) :
    ({ s with assigned := keys } : PassState).OfSort L P :=
  { sorted with }

variable (closed : Closed L P cx)

include closed

theorem bindVar {path : ScopeChain} {name : String} {id : SlotId} (type : P t)
    (h : bindVar path name t s = some (id, s')) : s'.OfSort L P := by
  rw [bindVar_run] at h
  cases h
  exact { sorted with
    tables := sorted.tables.extendVar closed _ type
    slots := sorted.slots.slotFor _ }

omit sorted

theorem bindVars {path : ScopeChain} {ps : List Parameter} {ts : List Ty} {ids : List SlotId}
    (sorted : s.OfSort L P) (types : ∀ t ∈ ts, P t)
    (h : bindVars path ps ts s = some (ids, s')) : s'.OfSort L P := by
  induction ps generalizing ts ids s with
  | nil => exact (pure_eq_some.1 h).2 ▸ sorted
  | cons p ps ih =>
    cases ts with
    | nil => exact (pure_eq_some.1 h).2 ▸ sorted
    | cons t ts =>
      obtain ⟨id, s₁, bound, h⟩ := bind_eq_some.1 h
      obtain ⟨rest, s₂, boundRest, h⟩ := bind_eq_some.1 h
      obtain ⟨-, rfl⟩ := pure_eq_some.1 h
      rw [List.forall_mem_cons] at types
      exact ih (sorted.bindVar closed types.1 bound) types.2 boundRest

theorem bindYielded {path : ScopeChain} {ps : List BlockParameter} {parts : List Typed.Expr}
    {ids : List SlotId} (sorted : s.OfSort L P) (types : ∀ c ∈ parts, ∀ t ∈ c.ty, P t)
    (h : bindYielded path ps parts s = some (ids, s')) : s'.OfSort L P := by
  induction ps generalizing parts ids s with
  | nil => exact (pure_eq_some.1 h).2 ▸ sorted
  | cons p ps ih =>
    obtain ⟨id, s₁, bound, h⟩ := bind_eq_some.1 h
    obtain ⟨rest, s₂, boundRest, h⟩ := bind_eq_some.1 h
    obtain ⟨-, rfl⟩ := pure_eq_some.1 h
    have type : P ((parts.head?.bind (·.ty)).getD Ty.nil) := by
      cases parts with
      | nil => exact closed.simple _
      | cons c parts =>
        cases ty : c.ty with
        | none =>
          rw [List.head?_cons, Option.bind_some, ty]
          exact closed.simple .nil
        | some t => simpa [ty] using types c List.mem_cons_self t ty
    refine ih (sorted.bindVar closed type bound) (fun c member => ?_) boundRest
    exact types c (List.mem_of_mem_drop member)

omit closed

theorem tempSlots {ts : List Ty} {ids : List SlotId} (sorted : s.OfSort L P)
    (types : ∀ t ∈ ts, P t) (h : tempSlots ts s = some (ids, s')) : s'.OfSort L P := by
  induction ts generalizing ids s with
  | nil => exact (pure_eq_some.1 h).2 ▸ sorted
  | cons t ts ih =>
    simp only [Inference.tempSlots] at h
    rw [bind_run (tempSlot_run _)] at h
    obtain ⟨rest, s₂, made, h⟩ := bind_eq_some.1 h
    obtain ⟨-, rfl⟩ := pure_eq_some.1 h
    rw [List.forall_mem_cons] at types
    have step : ({ s with frame := (s.frame.tempSlot t).2 } : PassState).OfSort L P :=
      { sorted with slots := sorted.slots.tempSlot types.1 }
    exact ih step types.2 made

end PassState.OfSort

end States

section Made

variable {cx : Setting} {t : Ty}

theorem ofNode_ofSort {node : Typed.Node} {ends : Completions} (types : ends.All P)
    (annotated : ∀ t ∈ node.annotations, P t) (parts : ∀ d ∈ node.parts, d.Throughout P) :
    (Elaborated.ofNode node ends).OfSort P :=
  ⟨types, .intro types.normal annotated parts⟩

theorem failed_ofSort : Elaborated.failed.OfSort P :=
  ofNode_ofSort Completions.never_all (forall_mem_nil _) (forall_mem_nil _)

/-- Operands that stop early stand for the whole. -/
theorem stopped_ofSort {parts : List Typed.Expr} {ends : Completions} (types : ends.All P)
    (each : ∀ c ∈ parts, c.Throughout P) :
    Elaborated.OfSort P ⟨Typed.Expr.ofParts parts none, ends⟩ :=
  ⟨types, .ofParts (fun t same => absurd same (Option.not_mem_none t)) each⟩

variable (closed : Closed L P cx)

include closed

theorem nil_ofSort : Elaborated.nil.OfSort P :=
  ofNode_ofSort (Completions.ofNormal_all (closed.simple _)) (forall_mem_nil _) (forall_mem_nil _)

theorem resultTy_ofSort (p : Primitive) (receiver : Ty) (arguments : List Ty) :
    P (p.resultTy receiver arguments) := by
  have number : P (if (receiver :: arguments).any fun t => t.className? == some "Float"
      then Ty.float else Ty.int) := by
    split <;> exact closed.simple _
  cases p <;> first | exact number | exact closed.simple _

end Made

section Constructs

variable {cx : Setting} {elaborate : Elaborate} {here : Place} {s s' : PassState} {l : Elaborated}
  (reduced : ReducedLayouts L) (closed : Closed L P cx)
  (growing : elaborate.Growing) (keeping : elaborate.Keeping L P)
  (place : here.activation.OfSort P) (sorted : s.OfSort L P) (same : s'.tables.layouts = L)

include reduced closed growing keeping place sorted same

section Sequences

theorem elaborateParts_ofSort {ends ends' : Completions} {es : List Expr}
    {codes : List Typed.Expr} (before : ends.All P)
    (h : elaborateParts elaborate here ends es s = some ((codes, ends'), s')) :
    s'.OfSort L P ∧ ends'.All P ∧ ∀ c ∈ codes, c.Throughout P := by
  induction es generalizing ends codes s with
  | nil =>
    obtain ⟨rfl, rfl, rfl⟩ := elaborateParts_nil_steps h
    exact ⟨sorted, before, forall_mem_nil _⟩
  | cons e es ih =>
    obtain ⟨first, s₁, run, rest⟩ := elaborateParts_cons_steps h
    rcases rest with ⟨-, rest, runRest, rfl⟩ | ⟨-, rfl, rfl, rfl⟩
    · have same₁ := sorted.between reduced (growing _ _ _ _ _ run)
        (elaborateParts_grows growing runRest) same
      obtain ⟨sorted₁, sortedFirst⟩ := keeping _ _ _ _ _ place sorted run same₁
      obtain ⟨sorted₂, types, each⟩ :=
        ih sorted₁ (before.andThen closed.join sortedFirst.ends) runRest
      exact ⟨sorted₂, types, List.forall_mem_cons.2 ⟨sortedFirst.inside, each⟩⟩
    · obtain ⟨sorted₁, sortedFirst⟩ := keeping _ _ _ _ _ place sorted run same
      exact ⟨sorted₁, before.andThen closed.join sortedFirst.ends,
        List.forall_mem_singleton.2 sortedFirst.inside⟩

theorem elaborateBody_ofSort {body : List Expr}
    (h : elaborateBody elaborate here body s = some (l, s')) : s'.OfSort L P ∧ l.OfSort P := by
  rcases elaborateBody_steps h with ⟨-, rfl, rfl⟩ | ⟨-, parts, ends, run, rfl⟩
  · exact ⟨sorted, nil_ofSort closed⟩
  · obtain ⟨sorted', types, each⟩ := elaborateParts_ofSort reduced closed growing keeping place
      sorted same (Completions.ofNormal_all (closed.simple _)) run
    exact ⟨sorted', types, .ofParts types.normal each⟩

end Sequences

section Leaves

omit reduced growing keeping place same in
theorem elaborateRead_ofSort {span : Span} {v : Variable}
    (h : elaborateRead cx here span v s = some (l, s')) : s'.OfSort L P ∧ l.OfSort P := by
  have read {t : Ty} {node : Typed.Node} (type : P t) (plain : node.annotations = [])
      (leaf : node.parts = []) : (Elaborated.ofNode node (.ofNormal t)).OfSort P :=
    ofNode_ofSort (Completions.ofNormal_all type) (by simp [plain]) (by simp [leaf])
  have found {α : Type} [BEq α] {key : α} {es : List (α × Ty)} (each : ∀ e ∈ es, P e.2) :
      P ((es.lookup key).getD Ty.nil) := by
    cases entry : es.lookup key with
    | none => exact closed.simple _
    | some t => exact lookup_forall each entry
  rcases elaborateRead_steps h with ⟨-, rfl, rfl⟩ | ⟨e, -, rfl, rfl⟩ | ⟨-, c, -, rfl, rfl⟩ |
    ⟨-, rfl, rfl⟩ | ⟨-, -, rfl, rfl⟩ | ⟨-, rfl, rfl⟩
  · have tables : (readLocal cx here.activation v.name s).tables.OfSort P := by
      simp only [readLocal]
      split
      · exact sorted.tables
      · exact sorted.tables.extendVar closed _ (closed.simple _)
    have layouts : (readLocal cx here.activation v.name s).tables.layouts = L := by
      simp only [readLocal]
      split <;> exact sorted.layouts
    exact ⟨⟨layouts, tables, sorted.slots.lookedUp _ _, sorted.methods⟩,
      read (found tables.vars) rfl rfl⟩
  · exact ⟨sorted.withErrors _, failed_ofSort⟩
  · exact ⟨sorted, read (closed.instanceVar _ sorted.layouts _ _) rfl rfl⟩
  · exact ⟨sorted, read (found sorted.tables.globals) rfl rfl⟩
  · exact ⟨sorted, read (closed.simple _) rfl rfl⟩
  · exact ⟨sorted, read (found sorted.tables.constants) rfl rfl⟩

theorem elaborateAssignment_ofSort {span : Span} {v : Variable} {value : Expr}
    (h : elaborateAssignment cx elaborate here span v value s = some (l, s')) :
    s'.OfSort L P ∧ l.OfSort P := by
  obtain ⟨first, s₁, run, rest⟩ := elaborateAssignment_steps h
  have grows : s₁.Grows s' := by
    rcases rest with ⟨-, -, rfl⟩ | ⟨t, -, ⟨-, -, rfl⟩ | ⟨-, -, -, rfl⟩ | ⟨-, c, -, -, rfl⟩ |
      ⟨-, -, rfl⟩ | ⟨-, -, rfl⟩⟩
    · exact .refl _
    · exact assignLocal_grows _ _ _
    · exact grows_with_error _ _
    · exact grows_tables _ (.extendLayout _ _ _ _)
    · exact grows_tables _ (.extendGlobal _ _ _)
    · exact grows_tables _ (.extendConstant _ _ _)
  obtain ⟨sorted₁, sortedFirst⟩ := keeping _ _ _ _ _ place sorted run
    (sorted.between reduced (growing _ _ _ _ _ run) grows same)
  rcases rest with ⟨-, rfl, rfl⟩ | ⟨t, normal, rest⟩
  · exact ⟨sorted₁, sortedFirst⟩
  · have type := sortedFirst.ends.normal t normal
    have alone : ∀ d ∈ [first.code], d.Throughout P :=
      List.forall_mem_singleton.2 sortedFirst.inside
    rcases rest with ⟨-, rfl, rfl⟩ | ⟨-, -, rfl, rfl⟩ | ⟨-, c, -, rfl, rfl⟩ | ⟨-, rfl, rfl⟩ |
      ⟨-, rfl, rfl⟩
    · exact ⟨{ sorted₁ with
        tables := sorted₁.tables.extendVar closed _ type
        slots := sorted₁.slots.lookedUp _ _ },
        ofNode_ofSort sortedFirst.ends (forall_mem_nil _) alone⟩
    · exact ⟨sorted₁.withErrors _, failed_ofSort⟩
    · exact ⟨{ sorted₁ with layouts := same, tables := { sorted₁.tables with } },
        ofNode_ofSort sortedFirst.ends (forall_mem_nil _) alone⟩
    · exact ⟨{ sorted₁ with tables := sorted₁.tables.extendGlobal closed _ type },
        ofNode_ofSort sortedFirst.ends (forall_mem_nil _) alone⟩
    · exact ⟨{ sorted₁ with tables := sorted₁.tables.extendConstant closed _ type },
        ofNode_ofSort sortedFirst.ends (forall_mem_nil _) alone⟩

end Leaves

section Control

omit reduced growing in
theorem elaborateExit_ofSort {id : NodeId} {span : Span} {keyword : String} {value : Option Expr}
    (h : elaborateExit cx elaborate here id span keyword value s = some (l, s')) :
    s'.OfSort L P ∧ l.OfSort P := by
  obtain ⟨first, s₁, run, rest⟩ := elaborateExit_steps h
  have layouts : s₁.tables.layouts = L := by
    rcases rest with ⟨-, -, rfl⟩ | ⟨t, -, ⟨f, -, rfl, -⟩ | ⟨b, -, rfl, -⟩ | ⟨-, -, rfl⟩⟩ <;>
      exact same
  have valueSorted : s₁.OfSort L P ∧ first.OfSort P := by
    cases value with
    | none =>
      obtain ⟨rfl, rfl⟩ := pure_eq_some.1 run
      exact ⟨sorted, nil_ofSort closed⟩
    | some d => exact keeping _ _ _ _ _ place sorted run layouts
  obtain ⟨sorted₁, sortedFirst⟩ := valueSorted
  have alone : ∀ d ∈ [first.code], d.Throughout P := List.forall_mem_singleton.2 sortedFirst.inside
  rcases rest with ⟨-, rfl, rfl⟩ | ⟨t, normal, ⟨f, -, rfl, rfl⟩ | ⟨b, -, rfl, rfl⟩ | ⟨-, rfl, rfl⟩⟩
  · exact ⟨sorted₁, sortedFirst⟩
  · exact ⟨sorted₁, ofNode_ofSort (sortedFirst.ends.dropNormal.addReturn closed.join f
      (sortedFirst.ends.normal t normal)) (forall_mem_nil _) alone⟩
  · exact ⟨sorted₁, ofNode_ofSort (sortedFirst.ends.dropNormal.addBreak closed.join b
      (sortedFirst.ends.normal t normal)) (forall_mem_nil _) alone⟩
  · exact ⟨sorted₁.withErrors _, failed_ofSort⟩

omit reduced growing in
theorem elaborateNot_ofSort {operand : Expr}
    (h : elaborateNot elaborate here operand s = some (l, s')) : s'.OfSort L P ∧ l.OfSort P := by
  obtain ⟨first, run, rest⟩ := elaborateNot_steps h
  obtain ⟨sorted', sortedFirst⟩ := keeping _ _ _ _ _ place sorted run same
  rcases rest with ⟨-, rfl⟩ | ⟨-, rfl⟩
  · exact ⟨sorted', sortedFirst⟩
  · exact ⟨sorted', ofNode_ofSort (sortedFirst.ends.dropNormal.addNormal closed.join
      (closed.simple _)) (forall_mem_nil _) (List.forall_mem_singleton.2 sortedFirst.inside)⟩

theorem elaborateConditional_ofSort {kind : ConditionKind} {condition : Expr}
    {consequent : List Expr} {alternative : Option (List Expr)}
    (h : elaborateConditional elaborate here kind condition consequent alternative s =
      some (l, s')) : s'.OfSort L P ∧ l.OfSort P := by
  obtain ⟨c, s₁, run, rest⟩ := elaborateConditional_steps h
  rcases rest with ⟨-, rfl, rfl⟩ | ⟨-, yes, s₂, no, s₃, runFirst, runSecond, rfl, rfl⟩
  · exact keeping _ _ _ _ _ place sorted run same
  · have growsFirst := elaborateBody_grows growing runFirst
    have growsSecond : s₂.Grows s₃ :=
      (grows_assigned _ _).trans (elaborateBody_grows growing runSecond)
    have same₁ := sorted.between reduced (growing _ _ _ _ _ run) (growsFirst.trans growsSecond) same
    obtain ⟨sorted₁, sortedCondition⟩ := keeping _ _ _ _ _ place sorted run same₁
    have same₂ := sorted₁.between reduced growsFirst growsSecond same
    obtain ⟨sorted₂, sortedYes⟩ :=
      elaborateBody_ofSort reduced closed growing keeping place sorted₁ same₂ runFirst
    have same₃ : s₃.tables.layouts = L := same
    obtain ⟨sorted₃, sortedNo⟩ := elaborateBody_ofSort reduced closed growing keeping place
      (sorted₂.withAssigned _) same₃ runSecond
    refine ⟨sorted₃.withAssigned _, ofNode_ofSort ?_ (forall_mem_nil _) ?_⟩
    · cases kind
      · exact (sortedCondition.ends.dropNormal.join closed.join sortedYes.ends).join closed.join
          sortedNo.ends
      · exact (sortedCondition.ends.dropNormal.join closed.join sortedNo.ends).join closed.join
          sortedYes.ends
    · have each := And.intro sortedCondition.inside (And.intro sortedYes.inside sortedNo.inside)
      cases kind <;>
        simp [Typed.Node.parts, Typed.Node.operands, Typed.Node.landing?, branches, each]

theorem elaborateWhile_ofSort {id : NodeId} {condition : Expr} {body : List Expr}
    (h : elaborateWhile elaborate here id condition body s = some (l, s')) :
    s'.OfSort L P ∧ l.OfSort P := by
  obtain ⟨c, s₁, run, rest⟩ := elaborateWhile_steps h
  rcases rest with ⟨-, rfl, rfl⟩ | ⟨-, b, s₂, runBody, rfl, rfl⟩
  · exact keeping _ _ _ _ _ place sorted run same
  · have same₁ := sorted.between reduced (growing _ _ _ _ _ run)
      ((grows_loop s₁).trans (elaborateBody_grows growing runBody)) same
    obtain ⟨sorted₁, sortedCondition⟩ := keeping _ _ _ _ _ place sorted run same₁
    have counted : ({ s₁ with nextLoop := s₁.nextLoop + 1 } : PassState).OfSort L P :=
      { sorted₁ with }
    have placeBody : (here.inLoop id ⟨s₁.nextLoop⟩).activation.OfSort P := place.withTarget _ _
    have same₂ : s₂.tables.layouts = L := same
    obtain ⟨sorted₂, sortedBody⟩ :=
      elaborateBody_ofSort reduced closed growing keeping placeBody counted same₂ runBody
    refine ⟨sorted₂.withAssigned _, ofNode_ofSort (sortedCondition.ends.dropNormal.join closed.join
      (sortedBody.ends.throughLoop closed.join _ _ (closed.simple _))) (forall_mem_nil _) ?_⟩
    exact List.forall_mem_cons.2
      ⟨sortedCondition.inside, List.forall_mem_singleton.2 sortedBody.inside⟩

theorem elaborateLogical_ofSort {connective : Connective} {left right : Expr}
    (h : elaborateLogical elaborate here connective left right s = some (l, s')) :
    s'.OfSort L P ∧ l.OfSort P := by
  obtain ⟨first, s₁, run, rest⟩ := elaborateLogical_steps h
  rcases rest with ⟨-, rfl, rfl⟩ | ⟨t, second, s₂, normal, runRight, rfl, rfl⟩
  · exact keeping _ _ _ _ _ place sorted run same
  · have same₁ := sorted.between reduced (growing _ _ _ _ _ run) (growing _ _ _ _ _ runRight) same
    obtain ⟨sorted₁, sortedFirst⟩ := keeping _ _ _ _ _ place sorted run same₁
    obtain ⟨sorted₂, sortedSecond⟩ := keeping _ _ _ _ _ place sorted₁ runRight same
    have types := (sortedFirst.ends.dropNormal.join closed.join sortedSecond.ends).joinNormal
      closed.join fun u same => Option.some.inj same ▸ sortedFirst.ends.normal t normal
    have parts : ∀ d ∈ [first.code, second.code], d.Throughout P := List.forall_mem_cons.2
      ⟨sortedFirst.inside, List.forall_mem_singleton.2 sortedSecond.inside⟩
    refine ⟨sorted₂.withAssigned _, ?_⟩
    cases connective <;> exact ofNode_ofSort types (forall_mem_nil _) parts

end Control

section Calls

variable {call : CallSyntax} {arguments : List Typed.Expr} {types : List Ty}

omit place in
theorem elaborateMethod_ofSort {depth : Nat} {key : Instantiation} (self : P key.selfType)
    (sent : ∀ t ∈ key.arguments, P t) {id : InstanceId}
    (h : elaborateMethod cx elaborate depth key s = some (id, s')) : s'.OfSort L P := by
  have admits : ∀ o ∈ s.methods.push none, ∀ m ∈ o,
      (∀ t ∈ m.types, P t) ∧ m.body.Throughout P := by
    intro o member
    rcases Array.mem_push.1 member with old | rfl
    · exact sorted.methods o old
    · exact fun m same => absurd same (Option.not_mem_none m)
  rcases elaborateMethod_steps h with ⟨-, rfl⟩ | ⟨-, -, ⟨-, rfl⟩ | ⟨m, parameters, s₁, body, s₂,
    found, bound, run, rfl⟩⟩
  · exact sorted
  · exact { sorted with methods := admits }
  · have entered : (enteredMethod key s).OfSort L P :=
      { sorted with
        slots := FrameSlots.OfSort.selfBound (f := FrameSlots.empty)
          (fun _ member => (List.not_mem_nil member).elim) _ self
        methods := admits }
    have placeBody : (methodPlace key m depth s).activation.OfSort P := ⟨self, trivial⟩
    have same₂ : s₂.tables.layouts = L := same
    obtain ⟨sorted₂, sortedBody⟩ := elaborateBody_ofSort reduced closed growing keeping placeBody
      (entered.bindVars closed sent bound) same₂ run
    have tables := sorted₂.tables.extendResult closed key
      (sortedBody.ends.methodResult closed.join ⟨s.nextFrame⟩)
    refine { sorted₂ with tables, slots := sorted.slots, methods := fun o member => ?_ }
    rcases Array.mem_or_eq_of_mem_setIfInBounds member with old | rfl
    · exact sorted₂.methods o old
    · rintro m' ⟨⟩
      refine ⟨List.forall_mem_cons.2 ⟨self, List.forall_mem_append.2 ⟨fun t result => ?_, ?_⟩⟩,
        sortedBody.inside⟩
      · exact tables.result (Option.mem_toList.1 result)
      · exact sorted₂.slots.typedSlots sorted₂.tables

theorem expandCall_ofSort {m : MethodEntry} {key : Instantiation} {block : Block}
    {receiver : Typed.Expr} (self : P key.selfType) (sent : ∀ t ∈ key.arguments, P t)
    (operands : ∀ c ∈ receiver :: arguments, c.Throughout P)
    (h : expandCall cx elaborate here call m key block receiver arguments s = some (l, s')) :
    s'.OfSort L P ∧ l.OfSort P := by
  rcases expandCall_steps h with ⟨-, rfl, rfl⟩ | ⟨-, parameters, s₁, body, s₂, bound, run, rfl, rfl⟩
  · exact ⟨sorted.withErrors _, failed_ofSort⟩
  · have entered : (enteredExpansion here call key s).OfSort L P :=
      { sorted with slots := sorted.slots.selfBound _ self }
    have placeBody : (expansionPlace here call m key block s).activation.OfSort P := ⟨self, place⟩
    have same₂ : s₂.tables.layouts = L := same
    obtain ⟨sorted₂, sortedBody⟩ := elaborateBody_ofSort reduced closed growing keeping placeBody
      (entered.bindVars closed sent bound) same₂ run
    refine ⟨sorted₂.withAssigned _, ofNode_ofSort (sortedBody.ends.throughCall closed.join _ _)
      (fun t member => ?_) fun d member => ?_⟩
    · rcases List.mem_append.1 member with early | early
      · exact sortedBody.ends.breakTy? _ t (Option.mem_toList.1 early)
      · exact sortedBody.ends.returnTy? _ t (Option.mem_toList.1 early)
    · rcases List.mem_append.1 member with operand | only
      · exact operands d operand
      · exact List.mem_singleton.1 only ▸ sortedBody.inside

omit place in
theorem elaborateConstruct_ofSort {c : String} (sent : ∀ t ∈ types, P t)
    (operands : ∀ c ∈ arguments, c.Throughout P)
    (h : elaborateConstruct cx elaborate here call c arguments types s = some (l, s')) :
    s'.OfSort L P ∧ l.OfSort P := by
  have made {initializer : Option InstanceId} {ends : Completions} (types : ends.All P) :
      (Elaborated.ofNode (.construct c initializer arguments) ends).OfSort P :=
    ofNode_ofSort types (forall_mem_nil _) fun d member => operands d
      (by simpa [Typed.Node.parts, Typed.Node.operands, Typed.Node.landing?] using member)
  have object {ts : Tables} (layouts : ts.layouts = L) :
      (Completions.ofNormal (ts.objectTy c)).All P :=
    Completions.ofNormal_all (closed.object ts layouts c)
  rcases elaborateConstruct_steps h with ⟨id, instanceId, -, run, rfl⟩ |
    ⟨-, ⟨-, rfl, rfl⟩ | ⟨-, rfl, rfl⟩⟩
  · have after := elaborateMethod_ofSort reduced closed growing keeping sorted same
      (closed.object _ sorted.layouts c) sent run
    refine ⟨after, made ?_⟩
    split
    · exact object same
    · exact Completions.never_all
  · exact ⟨sorted, made (object same)⟩
  · exact ⟨sorted.withErrors _, failed_ofSort⟩

theorem elaborateArm_ofSort {operands : List Typed.Expr} (each : ∀ t ∈ types, P t)
    (sent : ∀ c ∈ operands, c.Throughout P)
    (h : elaborateArm cx elaborate here call operands types s = some (l, s')) :
    s'.OfSort L P ∧ l.OfSort P := by
  rcases elaborateArm_steps h with ⟨e, -, rfl, rfl⟩ | ⟨receiverType, argumentTypes, rfl, rest⟩
  · exact ⟨sorted.withErrors _, failed_ofSort⟩
  · rw [List.forall_mem_cons] at each
    have rest' : ∀ c ∈ operands.drop 1, c.Throughout P :=
      fun c member => sent c (List.mem_of_mem_drop member)
    have receiver : (operands.headD Typed.Expr.nil).Throughout P := by
      cases operands with
      | nil => exact (nil_ofSort closed).inside
      | cons c operands => exact sent c List.mem_cons_self
    rcases rest with ⟨p, -, rfl, rfl⟩ | ⟨c, -, made⟩ | ⟨lib, name, -, rfl, rfl⟩ |
      ⟨id, m, -, -, called⟩
    · refine ⟨sorted, ofNode_ofSort
        (Completions.ofNormal_all (resultTy_ofSort closed p _ _)) (forall_mem_nil _)
        fun d member => ?_⟩
      rw [Typed.Node.parts, List.mem_append] at member
      exact List.forall_mem_cons.2 ⟨receiver, rest'⟩ d (member.resolve_right List.not_mem_nil)
    · exact elaborateConstruct_ofSort reduced closed growing keeping sorted same each.2 rest' made
    · refine ⟨sorted, ofNode_ofSort ?_ (forall_mem_nil _) fun d member => ?_⟩
      · rw [foreignEnds]
        split
        · rename_i t result
          obtain ⟨f, declared, type⟩ := Option.bind_eq_some_iff.1 result
          exact Completions.ofNormal_all (closed.foreign _ _ _ _ declared type)
        · exact Completions.never_all
      · rw [Typed.Node.parts, List.mem_append] at member
        exact rest' d (member.resolve_right List.not_mem_nil)
    · have self : P (calledKey m receiverType argumentTypes).selfType := by
        rw [calledKey]
        dsimp only
        split
        · exact each.1
        · exact closed.simple _
      have called' : ∀ c ∈ calledReceiver m (operands.headD Typed.Expr.nil) :: operands.drop 1,
          c.Throughout P := by
        refine List.forall_mem_cons.2 ⟨?_, rest'⟩
        rw [calledReceiver]
        split
        · exact receiver
        · exact .intro (fun t same => Option.some.inj same ▸ closed.simple _) (forall_mem_nil _)
            (forall_mem_nil _)
      rcases elaborateMethodCall_steps called with ⟨-, block, -, expanded⟩ | ⟨-, -, rfl, rfl⟩ |
        ⟨-, id', made, rfl⟩
      · exact expandCall_ofSort reduced closed growing keeping place sorted same self each.2 called'
          expanded
      · exact ⟨sorted.withErrors _, failed_ofSort⟩
      · have after := elaborateMethod_ofSort reduced closed growing keeping sorted same self each.2
          made
        refine ⟨after, ofNode_ofSort ?_ (forall_mem_nil _) fun d member => ?_⟩
        · split
          · rename_i t result
            exact Completions.ofNormal_all (after.tables.result result)
          · exact Completions.never_all
        · rw [Typed.Node.parts, List.mem_append] at member
          exact called' d (member.resolve_right List.not_mem_nil)

theorem elaborateArms_ofSort {temps : List SlotId} {before : List ScopeVar}
    {choices : List (List Ty)} {arms : List (Typed.Arm × Completions × List ScopeVar)}
    (each : ∀ ts ∈ choices, ∀ t ∈ ts, P t)
    (h : elaborateArms cx elaborate here call temps before choices s = some (arms, s')) :
    s'.OfSort L P ∧ ∀ arm ∈ arms, arm.2.1.All P ∧ (∀ t ∈ arm.1.types, P t) ∧
      arm.1.body.Throughout P := by
  induction choices generalizing s arms with
  | nil =>
    obtain ⟨rfl, rfl⟩ := elaborateArms_nil_steps h
    exact ⟨sorted, forall_mem_nil _⟩
  | cons types rest ih =>
    obtain ⟨arm, s₁, others, run, runRest, rfl⟩ := elaborateArms_cons_steps h
    rw [List.forall_mem_cons] at each
    have operands : ∀ c ∈ armOperands temps types, c.Throughout P := by
      intro c member
      obtain ⟨⟨slot, t⟩, there, rfl⟩ := List.mem_map.1 member
      exact .intro (fun u same => Option.some.inj same ▸ each.1 t (List.of_mem_zip there).2)
        (forall_mem_nil _) (forall_mem_nil _)
    have same₁ := sorted.between reduced
      ((grows_assigned s _).trans (elaborateArm_grows growing run))
      (elaborateArms_grows growing runRest) same
    obtain ⟨sorted₁, sortedArm⟩ := elaborateArm_ofSort reduced closed growing keeping place
      (sorted.withAssigned _) same₁ each.1 operands run
    obtain ⟨sorted₂, sortedOthers⟩ := ih sorted₁ each.2 runRest
    exact ⟨sorted₂, List.forall_mem_cons.2
      ⟨⟨sortedArm.ends, each.1, sortedArm.inside⟩, sortedOthers⟩⟩

theorem elaborateDispatch_ofSort {operands : List Typed.Expr} (each : ∀ t ∈ types, P t)
    (sent : ∀ c ∈ operands, c.Throughout P)
    (h : elaborateDispatch cx elaborate here call operands types s = some (l, s')) :
    s'.OfSort L P ∧ l.OfSort P := by
  rcases elaborateDispatch_steps h with ⟨-, single⟩ | ⟨-, ⟨n, -, rfl, rfl⟩ | ⟨chosen, temps, s₁,
    arms, s₂, expanded, made, run, rfl, rfl⟩⟩
  · exact elaborateArm_ofSort reduced closed growing keeping place sorted same each sent single
  · exact ⟨sorted.withErrors _, failed_ofSort⟩
  · have choices : ∀ ts ∈ chosen, ∀ t ∈ ts, P t := by
      rw [armsWithin_ok expanded]
      refine mem_choices (List.forall_mem_map.2 fun t member => ?_)
      exact closed.member t (each t member)
    have same₂ : s₂.tables.layouts = L := same
    obtain ⟨sorted₂, sortedArms⟩ := elaborateArms_ofSort reduced closed growing keeping place
      (sorted.tempSlots each made) same₂ choices run
    refine ⟨sorted₂.withAssigned _, ofNode_ofSort ?_ (fun t member => ?_) fun d member => ?_⟩
    · refine List.foldlRecOn arms _ Completions.never_all fun ends all arm member => ?_
      exact all.join closed.join (sortedArms arm member).1
    · obtain ⟨_, listed, type⟩ := List.mem_flatMap.1 member
      obtain ⟨arm, there, rfl⟩ := List.mem_map.1 listed
      exact (sortedArms arm there).2.1 t type
    · rw [Typed.Node.parts, List.mem_append] at member
      rcases List.mem_append.1 (member.resolve_right List.not_mem_nil) with operand | body
      · exact sent d operand
      · rw [List.map_map] at body
        obtain ⟨arm, listed, rfl⟩ := List.mem_map.1 body
        exact (sortedArms arm listed).2.2

theorem elaborateCall_ofSort {id : NodeId} {receiver : Option Expr} {name : String}
    {nameSpan : Span} {written : List Expr} {block : Option Block}
    (h : elaborateCall cx elaborate here id receiver name nameSpan written block s =
      some (l, s')) : s'.OfSort L P ∧ l.OfSort P := by
  obtain ⟨codes, ends, s₁, run, rest⟩ := elaborateCall_steps h
  have start : (Completions.ofNormal Ty.nil).All P := Completions.ofNormal_all (closed.simple _)
  rcases rest with ⟨-, rfl, rfl⟩ | ⟨-, sent, runSent, rfl⟩
  · obtain ⟨sorted₁, types, each⟩ :=
      elaborateParts_ofSort reduced closed growing keeping place sorted same start run
    exact ⟨sorted₁, stopped_ofSort types each⟩
  · have same₁ := sorted.between reduced (elaborateParts_grows growing run)
      (elaborateDispatch_grows growing runSent) same
    obtain ⟨sorted₁, types, each⟩ :=
      elaborateParts_ofSort reduced closed growing keeping place sorted same₁ start run
    have operands : ∀ c ∈ sentOperands here receiver codes, c.Throughout P := by
      rw [sentOperands]
      split
      · refine List.forall_mem_cons.2 ⟨.intro (fun t same => ?_) (forall_mem_nil _)
          (forall_mem_nil _), each⟩
        exact Option.some.inj same ▸ place.selfType
      · exact each
    have operandTypes : ∀ t ∈ (sentOperands here receiver codes).filterMap (·.ty), P t := by
      intro t member
      obtain ⟨c, there, type⟩ := List.mem_filterMap.1 member
      exact (operands c there).own t type
    obtain ⟨sorted₂, sortedSent⟩ := elaborateDispatch_ofSort reduced closed growing keeping place
      sorted₁ same operandTypes operands runSent
    exact ⟨sorted₂, types.andThen closed.join sortedSent.ends, sortedSent.inside⟩

theorem elaborateYield_ofSort {span : Span} {written : List Expr}
    (h : elaborateYield elaborate here span written s = some (l, s')) :
    s'.OfSort L P ∧ l.OfSort P := by
  obtain ⟨parts, ends, s₁, run, rest⟩ := elaborateYield_steps h
  have start : (Completions.ofNormal Ty.nil).All P := Completions.ofNormal_all (closed.simple _)
  rcases rest with ⟨-, rfl, rfl⟩ | ⟨-, ⟨block, site, definer, parameters, s₂, body, origin,
    bound, runBody, rfl⟩ | ⟨e, -, rfl, rfl⟩⟩
  · obtain ⟨sorted₁, types, each⟩ :=
      elaborateParts_ofSort reduced closed growing keeping place sorted same start run
    exact ⟨sorted₁, stopped_ofSort types each⟩
  · have same₁ := sorted.between reduced (elaborateParts_grows growing run)
      (((grows_assigned _ _).trans (bindYielded_grows bound)).trans
        (elaborateBody_grows growing runBody)) same
    obtain ⟨sorted₁, types, each⟩ :=
      elaborateParts_ofSort reduced closed growing keeping place sorted same₁ start run
    have sorted₂ := (sorted₁.withAssigned _).bindYielded closed
      (fun c member => (each c member).own) bound
    obtain ⟨sorted₃, sortedBody⟩ := elaborateBody_ofSort reduced closed growing keeping
      (place.yielded origin) sorted₂ same runBody
    refine ⟨sorted₃, ofNode_ofSort (types.andThen closed.join sortedBody.ends) (forall_mem_nil _)
      fun d member => ?_⟩
    rw [Typed.Node.parts, List.mem_append] at member
    rcases List.mem_append.1 (member.resolve_right List.not_mem_nil) with argument | only
    · exact each d argument
    · exact List.mem_singleton.1 only ▸ sortedBody.inside
  · have same₁ : s₁.tables.layouts = L := same
    obtain ⟨sorted₁, -, -⟩ :=
      elaborateParts_ofSort reduced closed growing keeping place sorted same₁ start run
    exact ⟨sorted₁.withErrors _, failed_ofSort⟩

end Calls

end Constructs

/-- Each construct keeps to the sort, given that its parts do. -/
theorem elaborateForm_keeping {cx : Setting} {elaborate : Elaborate}
    (reduced : ReducedLayouts L) (closed : Closed L P cx)
    (growing : elaborate.Growing) (keeping : elaborate.Keeping L P) :
    Elaborate.Keeping L P (elaborateForm cx elaborate) := by
  intro here e s l s' place sorted h same
  simp only [elaborateForm] at h
  cases form : e.form with
  | literal value =>
    simp only [form] at h
    obtain ⟨rfl, rfl⟩ := pure_eq_some.1 h
    refine ⟨sorted, ofNode_ofSort (Completions.ofNormal_all ?_) (forall_mem_nil _)
      (forall_mem_nil _)⟩
    cases value <;> exact closed.simple _
  | defMethod _ | defClass _ | defLib _ =>
    simp only [form] at h
    obtain ⟨rfl, rfl⟩ := pure_eq_some.1 h
    exact ⟨sorted, nil_ofSort closed⟩
  | self =>
    simp only [form] at h
    obtain ⟨rfl, rfl⟩ := pure_eq_some.1 h
    exact ⟨sorted, ofNode_ofSort (Completions.ofNormal_all place.selfType) (forall_mem_nil _)
      (forall_mem_nil _)⟩
  | read v =>
    simp only [form] at h
    exact elaborateRead_ofSort closed sorted h
  | assign v span value =>
    simp only [form] at h
    exact elaborateAssignment_ofSort reduced closed growing keeping place sorted same h
  | call receiver name nameSpan arguments block =>
    simp only [form] at h
    exact elaborateCall_ofSort reduced closed growing keeping place sorted same h
  | yield arguments =>
    simp only [form] at h
    exact elaborateYield_ofSort reduced closed growing keeping place sorted same h
  | «return» value | «break» value =>
    simp only [form] at h
    exact elaborateExit_ofSort closed keeping place sorted same h
  | conditional kind condition consequent alternative =>
    simp only [form] at h
    exact elaborateConditional_ofSort reduced closed growing keeping place sorted same h
  | «while» condition body =>
    simp only [form] at h
    exact elaborateWhile_ofSort reduced closed growing keeping place sorted same h
  | logical connective left right =>
    simp only [form] at h
    exact elaborateLogical_ofSort reduced closed growing keeping place sorted same h
  | not operand =>
    simp only [form] at h
    exact elaborateNot_ofSort closed keeping place sorted same h

theorem elaborateExpr_keeping {cx : Setting}
    (reduced : ReducedLayouts L) (closed : Closed L P cx)
    (fuel : Nat) : Elaborate.Keeping L P (elaborateExpr cx fuel) := by
  induction fuel with
  | zero =>
    intro here e s l s' place sorted h
    cases h
  | succ fuel ih => exact elaborateForm_keeping reduced closed (elaborateExpr_grows cx fuel) ih

section Passes

/-- A pass that starts with types of the sort and does not change the layouts ends with types of the
sort, and so does the code of the top level. -/
theorem pass_ofSort {cx : Setting} {fuel : Nat} {statements : List Expr} {ts : Tables}
    {s : PassState} {body : Elaborated}
    (reduced : ReducedLayouts L) (closed : Closed L P cx)
    (layouts : ts.layouts = L) (tables : ts.OfSort P)
    (run : elaborateBody (elaborateExpr cx fuel) mainPlace statements (enteredMain ts) =
      some (body, s))
    (same : s.tables.layouts = L) : s.OfSort L P ∧ body.OfSort P := by
  have entered : (enteredMain ts).OfSort L P :=
    ⟨layouts, tables, FrameSlots.OfSort.selfBound (f := FrameSlots.empty)
      (fun _ member => (List.not_mem_nil member).elim) _ (closed.simple _),
      by simp [enteredMain, PassState.start]⟩
  have place : mainPlace.activation.OfSort P := ⟨closed.simple _, trivial⟩
  exact elaborateBody_ofSort reduced closed (elaborateExpr_grows cx fuel)
    (elaborateExpr_keeping reduced closed fuel) place entered same run

/-- All types of a program that a pass has made. -/
theorem madeProgram_ofSort {cx : Setting} {s : PassState} {body : Elaborated}
    (closed : Closed L P cx) (sorted : s.OfSort L P) (main : body.OfSort P) :
    ∀ m ∈ (madeProgram cx body s).allMethods, (∀ t ∈ m.types, P t) ∧ m.body.Throughout P := by
  refine List.forall_mem_cons.2 ⟨⟨?_, main.inside⟩, fun m member => ?_⟩
  · refine List.forall_mem_cons.2
      ⟨closed.simple _, List.forall_mem_append.2 ⟨fun t result => ?_, ?_⟩⟩
    · exact main.ends.methodResult closed.join _ t (Option.mem_toList.1 result)
    · exact sorted.slots.typedSlots sorted.tables
  · rw [Array.mem_toList_iff, madeProgram, Array.mem_filterMap] at member
    obtain ⟨o, there, found⟩ := member
    exact sorted.methods o there m found

end Passes

end Inference

end TypedBlocks

import TypedBlocks.Proofs.CompilationSteps
import TypedBlocks.Proofs.DefinitionTables
import TypedBlocks.Proofs.FrameSlots
import TypedBlocks.Proofs.KnownTypes
import TypedBlocks.Proofs.ScopeKeys
import TypedBlocks.Proofs.TypingRules

/-!
# What a pass keeps

Whatever a pass elaborates with a vocabulary that covers the program, the tables, the keys of
variables and methods and the ends of expressions are made from that vocabulary alone, scopes are no
deeper than expansions may nest, and no key stands in a table twice.
-/
namespace TypedBlocks

theorem ForeignEntry.resultTy?_known {V : Vocabulary} {f : ForeignEntry} {t : Ty}
    (classes : ∀ c, f.returnType = some c → V.classes c) (result : f.resultTy? = some t) :
    t.Known V := by
  rw [resultTy?] at result
  split at result <;> cases result <;>
    first
    | exact .simple trivial
    | exact .instanceOf (classes _ (by assumption))

/-- The vocabulary has all that elaboration can come to in a program. -/
structure Vocabulary.Covers (V : Vocabulary) (cx : Inference.Setting) : Prop where
  parts : ∀ e, V.exprs e → ∀ d ∈ e.parts, V.exprs d
  read : ∀ e v, V.exprs e → e.form = .read v → V.names v.name
  assigned : ∀ e v span value, V.exprs e → e.form = .assign v span value → V.names v.name
  calls : ∀ e receiver name span arguments block, V.exprs e →
    e.form = .call receiver name span arguments block →
      V.nodes e.id ∧ ∀ b ∈ block, V.nodes b.id ∧ ∀ p ∈ b.parameters, V.names p.name
  classes : ∀ c, (cx.definitions.isClass c || cx.definitions.isLib c) = true → V.classes c
  results : ∀ lib name f t, cx.definitions.foreign? lib name = some f → f.resultTy? = some t →
    t.Known V
  methods : ∀ id m, cx.definitions.method? id = some m →
    (∀ p ∈ m.parameters, V.names p.name) ∧ ∀ e ∈ m.definition.body, V.exprs e

namespace Inference

open Typed (InstanceId SlotId Slot)
open Pass

section Definitions

variable (cx : Setting) (V : Vocabulary)

/-- The types are known, and there are as many as the method has parameters. -/
structure Instantiation.Known (k : Instantiation) : Prop where
  selfType : k.selfType.Known V
  arguments : ∀ t ∈ k.arguments, t.Known V
  arity : ∃ m, cx.definitions.method? k.method = some m ∧
    m.parameters.length = k.arguments.length

def ScopeLevel.Known : ScopeLevel → Prop
  | .main => True
  | .instance k => k.Known cx V
  | .inline site k => V.nodes site ∧ k.Known cx V
  | .block id => V.nodes id

/-- The levels are known, and each expansion around the scope makes at most two of them. -/
structure PathKnown (depth : Nat) (path : ScopeChain) : Prop where
  levels : ∀ level ∈ path, level.Known cx V
  length : path.length ≤ 2 * depth + 1

def ScopeVar.Known (k : ScopeVar) : Prop := PathKnown cx V cx.limits.maxInlineDepth k.path

structure Tables.Known (ts : Tables) : Prop where
  vars : Entries (fun k => ScopeVar.Known cx V k ∧ V.names k.name) (Ty.Known V) ts.vars
  methods : Entries (Instantiation.Known cx V) (fun a => ∀ t ∈ a, t.Known V) ts.methods
  layouts : Entries V.classes (Ty.VarsKnown V) ts.layouts
  globals : Entries V.names (Ty.Known V) ts.globals
  constants : Entries V.names (Ty.Known V) ts.constants

/-- What a block is written with is known. -/
structure BlockKnown (b : Block) : Prop where
  id : V.nodes b.id
  parameters : ∀ p ∈ b.parameters, V.names p.name
  body : ∀ e ∈ b.body, V.exprs e

mutual

/-- The scope and the type of `self` are known, also in the bodies that blocks stand in, which are
expanded less deeply. -/
def BodyContext.Known (depth : Nat) : BodyContext → Prop
  | ⟨path, _, selfType, _, _, origin⟩ =>
    PathKnown cx V depth path ∧ selfType.Known V ∧ origin.Known depth

def Origin.Known (depth : Nat) : Origin → Prop
  | .body => True
  | .expansion block _ definer => BlockKnown V block ∧ ∃ d < depth, definer.Known d
  | .block _ definer => ∃ d < depth, definer.Known d

end

structure Place.Known (here : Place) : Prop where
  activation : here.activation.Known cx V here.depth
  depth : here.depth ≤ cx.limits.maxInlineDepth

/-- Slots are numbered, all variables that have slots are of one sort, and the slots have their
names. -/
structure FrameSlots.Keyed (P : ScopeVar → Prop) (f : FrameSlots) : Prop where
  numbered : f.Numbered
  keys : ∀ entry ∈ f.slots, ∀ k ∈ entry.2, P k ∧ entry.1.name = k.name

structure PassState.Known (s : PassState) : Prop where
  tables : s.tables.Known cx V
  slots : s.frame.Keyed (ScopeVar.Known cx V)
  instances : Entries (Instantiation.Known cx V) (fun _ => True) s.instances
  assigned : ∀ k ∈ s.assigned, k.Known cx V
  methods : ∀ o ∈ s.methods, ∀ m ∈ o, m.body.AllTypes (Ty.Known V)
  /-- No pass complains about the lack of a fixed point. -/
  errors : ∀ e ∈ s.errors, e.span.isSome

/-- The ends have known types, as has all of the code, which has the type of its normal end. -/
structure Elaborated.Known (l : Elaborated) : Prop where
  ends : l.ends.All (Ty.Known V)
  typed : l.code.ty = l.ends.normal
  inside : l.code.AllTypes (Ty.Known V)

end Definitions

variable {cx : Setting} {V : Vocabulary}

section Keys

theorem Instantiation.Known.proper {k : Instantiation} (known : k.Known cx V) : k.Proper :=
  ⟨known.selfType.proper, fun t member => (known.arguments t member).proper⟩

theorem ScopeLevel.Known.proper {level : ScopeLevel} (known : level.Known cx V) :
    level.Proper := by
  cases level with
  | main | block id => trivial
  | «instance» k => exact Instantiation.Known.proper known
  | inline site k => exact Instantiation.Known.proper known.2

theorem PathKnown.proper {depth : Nat} {path : ScopeChain} (known : PathKnown cx V depth path) :
    ProperPath path := fun level member => (known.levels level member).proper

theorem ScopeVar.Known.proper {k : ScopeVar} (known : k.Known cx V) : k.Proper :=
  PathKnown.proper known

theorem PathKnown.mono {depth depth' : Nat} {path : ScopeChain} (known : PathKnown cx V depth path)
    (deeper : depth ≤ depth') : PathKnown cx V depth' path :=
  ⟨known.levels, by have := known.length; omega⟩

end Keys

section Tables

variable {ts : Tables} {t : Ty}

theorem empty_known : Tables.empty.Known cx V := ⟨.nil, .nil, .nil, .nil, .nil⟩

namespace Tables.Known

theorem extendEntries {α : Type} [BEq α] {K : α → Prop} {key : α} {es : List (α × Ty)}
    (entries : Entries K (Ty.Known V) es) (name : K key) (known : t.Known V) :
    Entries K (Ty.Known V) (extendAt key t es) :=
  extendAt_eq key t ▸ entries.updateAt name known fun _ here => here.join known

variable (known : ts.Known cx V)

include known

theorem layoutsOnly : ts.layoutsOnly.Known cx V := { empty_known with layouts := known.layouts }

theorem extendVar {key : ScopeVar} (scope : key.Known cx V) (name : V.names key.name)
    (type : t.Known V) : (ts.extendVar key t).Known cx V :=
  { known with vars := extendEntries known.vars ⟨scope, name⟩ type }

theorem extendGlobal {name : String} (new : V.names name) (type : t.Known V) :
    (ts.extendGlobal name t).Known cx V :=
  { known with globals := extendEntries known.globals new type }

theorem extendConstant {name : String} (new : V.names name) (type : t.Known V) :
    (ts.extendConstant name t).Known cx V :=
  { known with constants := extendEntries known.constants new type }

theorem extendResult {key : Instantiation} (new : key.Known cx V) {a : Option Ty}
    (types : ∀ t ∈ a, t.Known V) : (ts.extendResult key a).Known cx V := by
  refine { known with methods := ?_ }
  rw [Tables.extendResult, extendResultIn_eq]
  exact known.methods.updateAt new types fun _ here =>
    Ty.mergeOption_all (fun _ _ => Ty.Known.join) here types

theorem extendLayout {c name : String} (className : V.classes c) (new : V.names name)
    (type : t.Known V) : (ts.extendLayout c name t).Known cx V := by
  refine { known with layouts := ?_ }
  rw [Tables.extendLayout, extendLayoutIn_eq]
  exact known.layouts.updateAt className (Ty.VarsKnown.extendVarsOf .nil new type.bare)
    fun _ here => here.extendVarsOf new type.bare

theorem objectTy {c : String} (className : V.classes c) : (ts.objectTy c).Known V := by
  refine .object className ?_
  cases found : ts.layouts.lookup c with
  | none => exact .nil
  | some vars => exact known.layouts.lookup found

/-- The present layouts put in for all objects. -/
theorem withLayouts (type : t.Known V) : (ts.withLayouts t).Known V := by
  refine Ty.Over.mapMembers Ty.knownMember_flat (fun m member => ?_) type
  rcases member with ⟨s, simple, rfl⟩ | ⟨c, vs, className, -, rfl⟩
  · exact Ty.Known.simple simple
  · exact known.objectTy className

theorem instanceVar {c name : String} (found : ts.instanceVar? c name = some t) : t.Bare V := by
  obtain ⟨vars, layout, var⟩ := Option.bind_eq_some_iff.1 found
  exact (known.layouts.lookup layout).lookup var

theorem result {key : Instantiation} (found : ts.result? key = some t) : t.Known V := by
  have entry : ts.methods.lookup key = some (some t) := Option.join_eq_some_iff.1 found
  exact known.methods.lookup entry t rfl

end Tables.Known

end Tables

section Contexts

variable {depth : Nat}

theorem BodyContext.Known.path {a : BodyContext} (known : a.Known cx V depth) :
    PathKnown cx V depth a.path := by
  cases a
  exact known.1

theorem BodyContext.Known.selfType {a : BodyContext} (known : a.Known cx V depth) :
    a.selfType.Known V := by
  cases a
  exact known.2.1

theorem BodyContext.Known.mono {a : BodyContext} {depth' : Nat} (known : a.Known cx V depth)
    (deeper : depth ≤ depth') : a.Known cx V depth' := by
  rcases a with ⟨path, name, selfType, selfSlot, targets, origin⟩
  refine ⟨known.1.mono deeper, known.2.1, ?_⟩
  have outer := known.2.2
  cases origin with
  | body => trivial
  | expansion block site definer =>
    obtain ⟨written, d, less, outer⟩ := outer
    exact ⟨written, d, Nat.lt_of_lt_of_le less deeper, outer⟩
  | block id definer =>
    obtain ⟨d, less, outer⟩ := outer
    exact ⟨d, Nat.lt_of_lt_of_le less deeper, outer⟩

theorem BodyContext.Known.withTarget {a : BodyContext} (known : a.Known cx V depth)
    (exit : ExitTarget) (run : RunTarget) : (a.withTarget exit run).Known cx V depth := by
  cases a
  exact known

/-- The scope that a name belongs to is that of the body or of one that it stands in. -/
theorem BodyContext.Known.scopeOf {captures : CaptureTable} {name : String} : {a : BodyContext} →
    {depth : Nat} → a.Known cx V depth → PathKnown cx V depth (a.scopeOf captures name).1
  | ⟨_, _, _, _, _, .body⟩, _, known => known.1
  | ⟨_, _, _, _, _, .expansion _ _ _⟩, _, known => known.1
  | ⟨_, _, _, _, _, .block _ definer⟩, _, known => by
    obtain ⟨path, -, d, less, outer⟩ := known
    rw [BodyContext.scopeOf]
    split
    · exact path
    · split
      · exact path
      · split
        · exact path
        · exact (BodyContext.Known.scopeOf outer).mono (Nat.le_of_lt less)

/-- A name belongs to a scope that is known. -/
theorem Place.Known.scopeVar {here : Place} (known : here.Known cx V) (name : String) :
    ScopeVar.Known cx V ⟨(here.activation.scopeOf cx.captures name).1, name⟩ :=
  known.activation.scopeOf.mono known.depth

/-- The class of `self` is known where it has instance variables. -/
theorem Place.Known.objectClass {here : Place} (known : here.Known cx V) {c : String}
    (object : here.activation.objectClass? = some c) : V.classes c := by
  rw [BodyContext.objectClass?] at object
  split at object
  · rename_i c' vs only
    cases object
    exact known.activation.selfType.only? only
  · cases object

theorem BodyContext.Known.methodBody : {a : BodyContext} → {depth : Nat} → a.Known cx V depth →
    a.methodBody.Known cx V depth
  | ⟨_, _, _, _, _, .body⟩, _, known => known
  | ⟨_, _, _, _, _, .expansion _ _ _⟩, _, known => known
  | ⟨_, _, _, _, _, .block _ _⟩, _, ⟨_, _, _, less, outer⟩ =>
    (BodyContext.Known.methodBody outer).mono (Nat.le_of_lt less)

/-- A block runs where it stands, one expansion further out at least. -/
theorem BodyContext.Known.yielded {a definer : BodyContext} {block : Block} {site : SiteId}
    (known : a.Known cx V depth) (origin : a.methodBody.origin = .expansion block site definer) :
    BlockKnown V block ∧ (blockContext block site definer).Known cx V depth := by
  have body := known.methodBody
  rcases hb : a.methodBody with ⟨path, name, selfType, selfSlot, targets, o⟩
  rw [hb] at body origin
  cases origin
  obtain ⟨-, -, written, d, less, outer⟩ := body
  refine ⟨written, ⟨fun level member => ?_, ?_⟩, outer.selfType, d, less, outer⟩
  · rcases List.mem_cons.1 member with rfl | member
    · exact written.id
    · exact outer.path.levels level member
  · have := outer.path.length
    simp only [List.length_cons]
    omega

theorem Place.Known.inLoop {here : Place} (known : here.Known cx V) (id : NodeId)
    (loop : LoopId) : (here.inLoop id loop).Known cx V :=
  ⟨known.activation.withTarget _ _, known.depth⟩

theorem methodPlace_known {key : Instantiation} (known : key.Known cx V) (m : MethodEntry)
    (shallow : depth ≤ cx.limits.maxInlineDepth) (s : PassState) :
    (methodPlace key m depth s).Known cx V := by
  refine ⟨⟨⟨fun level member => ?_, ?_⟩, known.selfType, trivial⟩, shallow⟩
  · cases List.mem_singleton.1 member
    exact known
  · simp

theorem expansionPlace_known {here : Place} {call : CallSyntax} {key : Instantiation}
    {block : Block} (known : here.Known cx V) (site : V.nodes call.id) (types : key.Known cx V)
    (written : BlockKnown V block) (shallow : here.depth < cx.limits.maxInlineDepth)
    (m : MethodEntry) (s : PassState) : (expansionPlace here call m key block s).Known cx V := by
  refine ⟨⟨⟨fun level member => ?_, ?_⟩, types.selfType, written, here.depth, Nat.lt_succ_self _,
    known.activation⟩, shallow⟩
  · rcases List.mem_cons.1 member with rfl | member
    · exact ⟨site, types⟩
    · exact known.activation.path.levels level member
  · have := known.activation.path.length
    change (expansionPath here call key).length ≤ 2 * (here.depth + 1) + 1
    simp only [expansionPath, List.length_cons]
    omega

end Contexts

section Slots

variable {P : ScopeVar → Prop} {f : FrameSlots}

namespace FrameSlots.Keyed

theorem empty : FrameSlots.empty.Keyed P :=
  ⟨.empty, fun _ member => (List.not_mem_nil member).elim⟩

theorem slotFor (keyed : f.Keyed P) {key : ScopeVar} (new : P key) :
    (f.slotFor key).2.Keyed P := by
  refine ⟨keyed.numbered.slotFor key, ?_⟩
  rw [FrameSlots.slotFor]
  split
  · exact keyed.keys
  · intro entry member k same
    rcases List.mem_append.1 member with old | last
    · exact keyed.keys entry old k same
    · cases List.mem_singleton.1 last
      cases same
      exact ⟨new, rfl⟩

theorem update (keyed : f.Keyed P) (id : SlotId) (change : Slot → Slot)
    (keeps : ∀ slot, (change slot).id = slot.id ∧ (change slot).name = slot.name) :
    (f.update id change).Keyed P := by
  refine ⟨keyed.numbered.update id fun slot => (keeps slot).1, fun entry member k same => ?_⟩
  obtain ⟨old, there, rfl⟩ := List.mem_map.1 member
  dsimp only at same ⊢
  split at same
  · rw [if_pos ‹_›, (keeps _).2]
    exact keyed.keys old there k same
  · rw [if_neg ‹_›]
    exact keyed.keys old there k same

theorem tempSlot (keyed : f.Keyed P) (t : Ty) : (f.tempSlot t).2.Keyed P := by
  refine ⟨keyed.numbered.tempSlot t, fun entry member k same => ?_⟩
  rcases List.mem_append.1 member with old | last
  · exact keyed.keys entry old k same
  · cases List.mem_singleton.1 last
    cases same

theorem selfBound (keyed : f.Keyed P) {path : ScopeChain} (new : P ⟨path, "self"⟩) (t : Ty) :
    (selfBound f path t).2.Keyed P :=
  (keyed.slotFor new).update _ (fun slot => { slot with ty := some t }) fun _ => ⟨rfl, rfl⟩

theorem lookedUp (keyed : f.Keyed P) {key : ScopeVar} (new : P key) (captured : Bool) :
    (lookedUp f key captured).Keyed P := by
  rw [Pass.lookedUp]
  split
  · exact (keyed.slotFor new).update _ (fun slot => { slot with captured := true })
      fun _ => ⟨rfl, rfl⟩
  · exact keyed.slotFor new

end FrameSlots.Keyed

end Slots

end Inference

end TypedBlocks

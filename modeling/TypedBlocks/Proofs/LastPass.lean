import TypedBlocks.Proofs.CarriedExits
import TypedBlocks.Proofs.FinishedMethods
import TypedBlocks.Proofs.SlotVariables

/-!
# The last pass

All states of the last pass have the tables that it ends with, because tables only grow and these
are where it has started. The methods that it makes have the types they are listed with.
-/
namespace TypedBlocks

namespace Inference

open Typed (InstanceId SlotId Slot Context Signatures)
open Pass

section States

variable {cx : Setting} {F : Tables} {s s' : PassState}

/-- A state of the last pass, which has the tables that the pass ends with. -/
structure PassState.Fixed (cx : Setting) (F : Tables) (s : PassState) : Prop where
  known : s.Known cx .all
  tables : s.tables = F
  entered : ∀ k ∈ s.assigned, ∃ t, F.var? k = some t

/-- The pass can go on to the tables, and has met no error. -/
structure PassState.Leads (F : Tables) (s : PassState) : Prop where
  tables : s.tables.Grows F
  sound : s.errors = []

theorem PassState.Leads.back (leads : s'.Leads F) (grows : s.Grows s') : s.Leads F :=
  ⟨grows.tables.trans leads.tables, grows.no_errors leads.sound⟩

theorem PassState.Leads.no_failure (leads : s'.Leads F) {e : StaticError}
    (same : s' = { s with errors := s.errors ++ [e] }) : False :=
  Inference.no_failure leads.sound same

namespace PassState.Fixed

variable (fixed : s.Fixed cx F)

include fixed

theorem final : F.Known cx .all := fixed.tables ▸ fixed.known.tables

/-- Tables that grow from those of the last pass and lead to them are the same. -/
theorem next (grows : s.Grows s') (leads : s'.Leads F) (known : s'.Known cx .all)
    (entered : ∀ k ∈ s'.assigned, ∃ t, F.var? k = some t) : s'.Fixed cx F where
  known := known
  tables := fixed.final.reduced.antisymm (fixed.tables ▸ grows.tables) leads.tables
  entered := entered

theorem withAssigned {keys : List ScopeVar} (known : ∀ k ∈ keys, k.Known cx .all)
    (entered : ∀ k ∈ keys, ∃ t, F.var? k = some t) :
    ({ s with assigned := keys } : PassState).Fixed cx F :=
  ⟨{ fixed.known with assigned := known }, fixed.tables, entered⟩

theorem withAssignedOf {s₁ : PassState} (earlier : s₁.Fixed cx F) :
    ({ s with assigned := s₁.assigned } : PassState).Fixed cx F :=
  fixed.withAssigned earlier.known.assigned earlier.entered

theorem withoutAssigned (p : ScopeVar → Bool) :
    ({ s with assigned := s.assigned.filter p } : PassState).Fixed cx F :=
  fixed.withAssigned (fun k member => fixed.known.assigned k (List.mem_filter.1 member).1)
    fun k member => fixed.entered k (List.mem_filter.1 member).1

/-- An assigned variable has an entry. -/
theorem entry_of_assigned {key : ScopeVar} (known : key.Known cx .all)
    (assigned : s.assigned.any (· == key) = true) : ∃ t, F.var? key = some t := by
  obtain ⟨k, member, same⟩ := List.any_eq_true.1 assigned
  have known' := fixed.known.assigned k member
  obtain ⟨t, entry⟩ := fixed.entered k member
  have kind := (ScopeVar.beq_iff known'.proper known.proper).1 same
  exact ⟨t, by rwa [← fixed.final.var?_kind known known' kind]⟩

theorem marked {key : ScopeVar} (entry : ∃ t, F.var? key = some t) :
    ∀ k ∈ marked s.assigned key, ∃ t, F.var? k = some t := by
  intro k member
  rw [Pass.marked] at member
  split at member
  · exact fixed.entered k member
  · rcases List.mem_cons.1 member with rfl | old
    · exact entry
    · exact fixed.entered k old

end PassState.Fixed

end States

section Methods

variable {cx : Setting} {F : Tables}

/-- The method has the types that it is listed with. -/
structure Realizes (F : Tables) (key : Instantiation) (m : Typed.Method) : Prop where
  selfType : m.selfType = key.selfType
  result : m.returnType = F.result? key
  parameters : ∀ b ∈ m.parameters.zip key.arguments,
    ∃ u, Context.slotTy? ⟨m.locals, []⟩ b.1 = some u ∧ u.Proper ∧ b.2 ≤ u

/-- All methods that are listed are there. -/
def KnowsMethods (F : Tables) (method? : InstanceId → Option Typed.Method)
    (listed : List (Instantiation × InstanceId)) : Prop :=
  ∀ key id, (key, id) ∈ listed → ∃ m, method? id = some m ∧ Realizes F key m

/-- The body of the method is checked in its frame also when only the tables give types to slots. They
give the parameters the same types as the frame does. -/
structure FrameChecked (F : Tables) (σ : Signatures) (f : FrameSlots) (m : Typed.Method) : Prop where
  named : ∀ e ∈ f.slots, ∀ k ∈ e.2, e.1.name = k.name
  locals : m.locals = f.typedSlots F
  self : f.Hides m.selfSlot
  body : m.body.Checked σ ⟨f.untyped.typedSlots F, [(m.selfSlot, m.selfType)]⟩
  parameters : ∀ s ∈ m.parameters, ∃ t, Context.slotTy? ⟨f.untyped.typedSlots F, []⟩ s = some t ∧
    Context.slotTy? ⟨f.typedSlots F, []⟩ s = some t

/-- The method is well typed, whatever comes after those that are known with it. -/
def TypedMethod (F : Tables) : MethodProperty := fun _ listed m =>
  ∀ method?, KnowsMethods F method? listed →
    m.WellTyped (F.signatures method?) ∧ ∃ f, FrameChecked F (F.signatures method?) f m

theorem KnowsMethods.earlier {method? : InstanceId → Option Typed.Method}
    {listed listed' : List (Instantiation × InstanceId)} (knows : KnowsMethods F method? listed')
    (longer : listed <+: listed') : KnowsMethods F method? listed :=
  fun key id member => knows key id (longer.subset member)

theorem typedMethod_lasting : (TypedMethod F).Lasting :=
  fun _ _ _ _ longer typed method? knows => typed method? (knows.earlier longer)

/-- Arguments of the same types can be bound as well. -/
theorem binds_of_same {Γ : Context} {ps : List SlotId} {ts us : List Ty}
    {arguments : List Typed.Expr} (same : sameTypes ts us = true) (left : ∀ t ∈ ts, t.Proper)
    (right : ∀ u ∈ us, u.Proper) (typed : arguments.map (·.ty) = ts.map some)
    (stores : ∀ b ∈ ps.zip us, ∃ w, Γ.slotTy? b.1 = some w ∧ w.Proper ∧ b.2 ≤ w) :
    Γ.Binds ps arguments := by
  constructor
  · intro e member
    have there : e.ty ∈ ts.map some := typed ▸ List.mem_map_of_mem member
    obtain ⟨t, -, some⟩ := List.mem_map.1 there
    rw [← some]
    rfl
  · induction ps generalizing ts us arguments with
    | nil => nofun
    | cons p ps ih =>
      cases arguments with
      | nil => nofun
      | cons e arguments =>
        cases ts with
        | nil => cases typed
        | cons t ts =>
          cases us with
          | nil => cases same
          | cons u us =>
            rw [sameTypes, Bool.and_eq_true] at same
            rw [List.map_cons, List.map_cons, List.cons.injEq] at typed
            rw [List.zip_cons_cons, List.forall_mem_cons] at stores
            rw [List.forall_mem_cons] at left right
            rw [List.zip_cons_cons, List.forall_mem_cons]
            refine ⟨?_, ih same.2 left.2 right.2 typed.2 stores.2⟩
            obtain ⟨w, found, proper, below⟩ := stores.1
            exact ⟨t, w, typed.1, found, left.1.le_trans right.1 proper
              (left.1.le_of_same right.1 same.1) below⟩

/-- The method that a call names takes its receiver and its arguments, and has the result that the
tables know for the call. -/
theorem KnowsMethods.callee {method? : InstanceId → Option Typed.Method}
    {listed : List (Instantiation × InstanceId)} (knows : KnowsMethods F method? listed)
    (tables : F.Known cx .all) {key k : Instantiation} {id : InstanceId} (member : (k, id) ∈ listed)
    (left : key.Known cx .all) (right : k.Known cx .all) (same : (key == k) = true) :
    ∃ m, method? id = some m ∧ key.selfType ≤ m.selfType ∧ m.returnType = F.result? key ∧
      ∀ arguments : List Typed.Expr, arguments.map (·.ty) = key.arguments.map some →
        Context.Binds ⟨m.locals, []⟩ m.parameters arguments := by
  obtain ⟨m, found, realizes⟩ := knows k id member
  have parts : (key.method == k.method && key.selfType == k.selfType &&
    sameTypes key.arguments k.arguments) = true := same
  simp only [Bool.and_eq_true] at parts
  refine ⟨m, found, ?_, ?_, fun arguments typed => ?_⟩
  · rw [realizes.selfType]
    exact left.selfType.proper.le_of_same right.selfType.proper parts.1.2
  · rw [realizes.result, Tables.result?, Tables.result?]
    refine congrArg Option.join ?_
    exact lookup_kind (P := Instantiation.Proper) (fun _ _ => Instantiation.beq_iff)
      (fun e inside => (tables.methods.each e inside).1.proper) right.proper left.proper
      ((Instantiation.beq_iff left.proper right.proper).1 same).symm
  · exact binds_of_same parts.2 (fun t inside => (left.arguments t inside).proper)
      (fun t inside => (right.arguments t inside).proper) typed realizes.parameters

end Methods

end Inference

end TypedBlocks

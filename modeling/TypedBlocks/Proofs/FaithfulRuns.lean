import TypedBlocks.Proofs.AssignedRuns
import TypedBlocks.Proofs.SafeCode
import TypedBlocks.Proofs.TypedMachines

/-!
# Faithful runs

A run is faithful as long as the value of each expression is of its type. It can stop being so at a
slip: a variable is read that has not been set, and the type of the read has no nil. Evaluation of
safe code is faithful up to the first slip, and while there is none, machines stay typed, exits carry
values of the types that they leave with, and no operands are invalid.
-/
namespace TypedBlocks

open Typed (SlotId Signatures Context)
open Inference (RunTarget)

/-- The event is a read of a variable that has not been set. -/
def Event.ReadsUnset (ev : Event) : Prop :=
  match ev.expr.node with
  | .slot s => s ∉ ev.assigned
  | .global name => ev.machine.globals.lookup name = none
  | .constant name => ev.machine.constants.lookup name = none
  | .instanceVar object name =>
    ∃ r, ev.machine.slot object = .object r ∧
      (ev.machine.heap.getD r.index []).lookup name = none
  | _ => False

/-- A variable that has not been set is read with a type that has no nil. -/
def Event.Slips (ev : Event) : Prop :=
  ev.ReadsUnset ∧ ∀ t, ev.expr.ty = some t → ¬ Ty.nil ≤ t

/-- The value is of the type of the expression. -/
def Event.Faithful (ev : Event) : Prop := ∃ t, ev.expr.ty = some t ∧ ev.value.isOf t

def Unslipped (events : List Event) : Prop := ∀ ev ∈ events, ¬ ev.Slips

/-- Up to the first slip, all events are faithful. -/
def FaithfulLog : List Event → Prop
  | [] => True
  | ev :: earlier => FaithfulLog earlier ∧ (Unslipped (ev :: earlier) → ev.Faithful)

section Logs

variable {later earlier : List Event} {ev : Event}

theorem Unslipped.suffix (unslipped : Unslipped later) (longer : earlier <:+ later) :
    Unslipped earlier := fun ev member => unslipped ev (longer.subset member)

theorem FaithfulLog.suffix (faithful : FaithfulLog later) (longer : earlier <:+ later) :
    FaithfulLog earlier := by
  obtain ⟨new, rfl⟩ := longer
  induction new with
  | nil => exact faithful
  | cons ev new ih => exact ih faithful.1

/-- Once there has been a slip, nothing more is asked for. -/
theorem FaithfulLog.extend (faithful : FaithfulLog earlier) (slipped : ¬ Unslipped earlier)
    (longer : earlier <:+ later) : FaithfulLog later := by
  obtain ⟨new, rfl⟩ := longer
  induction new with
  | nil => exact faithful
  | cons ev new ih =>
    exact ⟨ih, fun unslipped => absurd (unslipped.suffix (List.suffix_append (ev :: new) _)) slipped⟩

theorem FaithfulLog.event (faithful : FaithfulLog (later ++ ev :: earlier))
    (unslipped : Unslipped (ev :: earlier)) : ev.Faithful :=
  (faithful.suffix (List.suffix_append later _)).2 unslipped

end Logs

/-- The fault is not one that types rule out. -/
def Fault.Legal : Fault → Prop
  | .invalidOperands _ _ | .noMatchingArm _ => False
  | _ => True

namespace Typed

/-- The watched machine is typed at a place. -/
structure TypedAt (σ : Signatures) (Γ : Context) (classes : List String) (w : Watch) : Prop where
  stored : Stored σ classes w.machine
  framed : Framed Γ classes w.machine w.assigned

/-- Nothing has slipped so far, and the machine is typed. -/
structure Starts (σ : Signatures) (Γ : Context) (classes : List String) (w : Watch) : Prop where
  faithful : FaithfulLog w.events
  unslipped : Unslipped w.events
  typed : TypedAt σ Γ classes w

/-- What has been noted is faithful, and unless something has slipped, the machine is typed, with more
objects than before. -/
structure Reaches (σ : Signatures) (Γ : Context) (classes : List String) (w : Watch)
    (holds : List String → Prop) : Prop where
  faithful : FaithfulLog w.events
  typed : Unslipped w.events → ∃ classes', classes <+: classes' ∧ TypedAt σ Γ classes' w ∧
    holds classes'

/-- The watched machine that an evaluation ends with. -/
def lastWatch {α : Type} : EStateM.Result Stop Watch α → Watch
  | .ok _ w | .error _ w => w

/-- A value is as promised, an exit carries a value of a type that it can leave with, and a fault is
legal. -/
def Justified {α : Type} (exits : RunTarget → Ty → Prop) (Q : List String → α → Prop)
    (classes : List String) : EStateM.Result Stop Watch α → Prop
  | .ok a _ => Q classes a
  | .error (.exit e) _ => ∃ t, exits e.target t ∧ t.Proper ∧ e.value.Fits classes t
  | .error (.fault f) _ => f.Legal
  | .error .outOfFuel _ => True

/-- A property that objects made later do not change. -/
def Lasting (P : List String → Prop) : Prop := ∀ classes classes', classes <+: classes' →
  P classes → P classes'

/-- The end of an evaluation without a value stays justified where its exit leaves with the types that
it can leave with. -/
theorem Justified.elsewhere {α β : Type} {exits exits' : RunTarget → Ty → Prop}
    {Q : List String → α → Prop} {Q' : List String → β → Prop} {classes : List String} {stop : Stop}
    {w : Watch} (leaves : ∀ e, stop = .exit e → ∀ t, exits e.target t → exits' e.target t)
    (justified : Justified exits Q classes (.error stop w)) :
    Justified exits' Q' classes (.error stop w) := by
  cases stop with
  | exit e =>
    obtain ⟨t, there, fits⟩ := justified
    exact ⟨t, leaves e rfl t there, fits⟩
  | fault f => exact justified
  | outOfFuel => trivial

/-- From a typed machine the evaluation reaches a typed one, and its end is justified. -/
structure Delivers {α : Type} (σ : Signatures) (Γ : Context) (exits : RunTarget → Ty → Prop)
    (P : List String → Prop) (x : Watched α) (Q : List String → α → Prop) : Prop where
  logs : ∀ w, w.events <:+ (lastWatch (x w)).events
  runs : ∀ classes w, Starts σ Γ classes w → P classes →
    Reaches σ Γ classes (lastWatch (x w)) fun classes' => Justified exits Q classes' (x w)

section Combinators

variable {α β : Type} {σ : Signatures} {Γ Γ' : Context} {exits exits' : RunTarget → Ty → Prop}
  {P P' : List String → Prop} {x : Watched α} {Q Q' : List String → α → Prop}
  {classes classes' : List String} {w w' : Watch} {holds holds' : List String → Prop}

theorem Starts.reaches (starts : Starts σ Γ classes w) (now : holds classes) :
    Reaches σ Γ classes w holds where
  faithful := starts.faithful
  typed _ := ⟨classes, List.prefix_refl _, starts.typed, now⟩

theorem Reaches.imp (reaches : Reaches σ Γ classes w holds)
    (implies : ∀ classes', classes <+: classes' → TypedAt σ Γ classes' w → holds classes' →
      holds' classes') : Reaches σ Γ classes w holds' where
  faithful := reaches.faithful
  typed unslipped := by
    obtain ⟨classes', more, typed, now⟩ := reaches.typed unslipped
    exact ⟨classes', more, typed, implies classes' more typed now⟩

/-- Go on from where an evaluation has led. -/
theorem Reaches.next (reaches : Reaches σ Γ classes w holds) (longer : w.events <:+ w'.events)
    (rest : ∀ classes', classes <+: classes' → Starts σ Γ classes' w → holds classes' →
      Reaches σ Γ' classes' w' holds') : Reaches σ Γ' classes w' holds' := by
  by_cases unslipped : Unslipped w.events
  · obtain ⟨classes', more, typed, now⟩ := reaches.typed unslipped
    have ⟨faithful, after⟩ := rest classes' more ⟨reaches.faithful, unslipped, typed⟩ now
    refine ⟨faithful, fun unslipped' => ?_⟩
    obtain ⟨classes'', more', typed', now'⟩ := after unslipped'
    exact ⟨classes'', more.trans more', typed', now'⟩
  · exact ⟨reaches.faithful.extend unslipped longer,
      fun unslipped' => absurd (unslipped'.suffix longer) unslipped⟩

/-- Evaluate from where another evaluation has led. -/
theorem Delivers.after (delivers : Delivers σ Γ exits (fun _ => True) x Q)
    (reaches : Reaches σ Γ classes w holds) :
    Reaches σ Γ classes (lastWatch (x w)) fun classes' => Justified exits Q classes' (x w) :=
  reaches.next (delivers.logs w) fun classes' _ starts _ => delivers.runs classes' w starts trivial

theorem Delivers.imp (delivers : Delivers σ Γ exits P x Q)
    (before : ∀ classes, P' classes → P classes)
    (leaves : ∀ target t, exits target t → exits' target t)
    (after : ∀ classes a, Q classes a → Q' classes a) :
    Delivers σ Γ exits' P' x Q' where
  logs := delivers.logs
  runs classes w starts holds := by
    refine (delivers.runs classes w starts (before classes holds)).imp fun classes' _ _ now => ?_
    cases run : x w with
    | ok a w' =>
      rw [run] at now
      exact after classes' a now
    | error stop w' =>
      rw [run] at now
      exact now.elsewhere fun e _ => leaves _

theorem delivers_pure {a : α} (holds : ∀ classes, P classes → Q classes a) :
    Delivers σ Γ exits P (pure a) Q where
  logs _ := List.suffix_refl _
  runs classes _ starts now := starts.reaches (holds classes now)

theorem delivers_exit {e : Exit}
    (carried : ∀ classes, P classes → ∃ t, exits e.target t ∧ t.Proper ∧ e.value.Fits classes t) :
    Delivers σ Γ exits P (throw (.exit e)) Q where
  logs _ := List.suffix_refl _
  runs classes _ starts now := starts.reaches (carried classes now)

theorem delivers_outOfFuel : Delivers σ Γ exits P (throw .outOfFuel) Q where
  logs _ := List.suffix_refl _
  runs _ _ starts _ := starts.reaches trivial

theorem delivers_ofExcept {result : Except Fault α}
    (value : ∀ classes w, Starts σ Γ classes w → P classes → ∀ a, result = .ok a → Q classes a)
    (fault : ∀ classes w, Starts σ Γ classes w → P classes → ∀ f, result = .error f → f.Legal) :
    Delivers σ Γ exits P (Watched.lift (Eval.ofExcept result)) Q := by
  cases result with
  | ok a =>
    exact ⟨fun _ => List.suffix_refl _, fun classes w starts now =>
      starts.reaches (value classes w starts now a rfl)⟩
  | error f =>
    exact ⟨fun _ => List.suffix_refl _, fun classes w starts now =>
      starts.reaches (fault classes w starts now f rfl)⟩

theorem delivers_fault {f : Fault}
    (legal : ∀ classes w, Starts σ Γ classes w → P classes → f.Legal) :
    Delivers σ Γ exits P (Watched.lift (Eval.fault f)) Q where
  logs _ := List.suffix_refl _
  runs classes w starts now := starts.reaches (legal classes w starts now)

/-- A step that changes no slot and makes no object. -/
theorem delivers_modify {change : Machine → Machine}
    (slots : ∀ m, (change m).slots = m.slots)
    (stored : ∀ classes w, Starts σ Γ classes w → P classes →
      Stored σ classes (change w.machine)) :
    Delivers σ Γ exits P (Watched.lift (modify change)) (fun _ (_ : PUnit) => True) where
  logs _ := List.suffix_refl _
  runs classes w starts now := {
    faithful := starts.faithful
    typed := fun _ => ⟨classes, List.prefix_refl _, ⟨stored classes w starts now,
      starts.typed.framed.congr (slots _) fun _ => Iff.rfl⟩, trivial⟩ }

theorem delivers_allocate {c : String} (plain : c ∉ valueClasses) :
    Delivers σ Γ exits P (Watched.lift (modifyGet (·.allocate c)))
      (fun classes v => v.Fits classes (σ.objectTy c)) where
  logs _ := List.suffix_refl _
  runs classes w starts now := {
    faithful := starts.faithful
    typed := fun _ => by
      obtain ⟨stored, fits⟩ := starts.typed.stored.allocate (σ := σ) plain
      refine ⟨classes ++ [c], List.prefix_append _ _, ⟨stored,
        (starts.typed.framed.mono (List.prefix_append _ _)).congr rfl fun _ => Iff.rfl⟩, fits _ ?_⟩
      simp [Machine.allocate, Signatures.objectTy, Value.isOf, Ty.members, Value.isOfMember] }

theorem delivers_bind {f : α → Watched β} {Q' : List String → β → Prop}
    (lasting : Lasting P) (first : Delivers σ Γ exits P x Q)
    (next : ∀ a, Delivers σ Γ exits (fun classes => P classes ∧ Q classes a) (f a) Q') :
    Delivers σ Γ exits P (x >>= f) Q' where
  logs w := by
    have longer := first.logs w
    change _ <:+ (lastWatch (EStateM.bind x f w)).events
    rw [EStateM.bind]
    cases run : x w with
    | ok a w₁ =>
      rw [run] at longer
      exact longer.trans ((next a).logs w₁)
    | error stop w₁ =>
      rw [run] at longer
      exact longer
  runs classes w starts now := by
    have reaches := first.runs classes w starts now
    change Reaches σ Γ classes (lastWatch (EStateM.bind x f w)) fun classes' =>
      Justified exits Q' classes' (EStateM.bind x f w)
    rw [EStateM.bind]
    cases run : x w with
    | ok a w₁ =>
      rw [run] at reaches
      exact reaches.next ((next a).logs w₁) fun classes' more starts' holds =>
        (next a).runs classes' w₁ starts' ⟨lasting _ _ more now, holds⟩
    | error stop w₁ =>
      rw [run] at reaches
      exact reaches.imp fun classes' _ _ => Justified.elsewhere fun _ _ _ => id

/-- Change slots, and go on where more or other slots are bound. -/
theorem delivers_enter (Γ' : Context) {change : Machine → Machine}
    {assigned : List SlotId → List SlotId}
    (store : ∀ m, change m = { m with slots := (change m).slots })
    (enters : ∀ classes w, Starts σ Γ classes w → P classes →
      Framed Γ' classes (change w.machine) (assigned w.assigned))
    (leaves : ∀ classes m assigned, Framed Γ' classes m assigned → Framed Γ classes m assigned)
    (body : Delivers σ Γ' exits P x Q) :
    Delivers σ Γ exits P (do Watched.bind change assigned; x) Q where
  logs w := body.logs { w with machine := change w.machine, assigned := assigned w.assigned }
  runs classes w starts now := by
    have stored : Stored σ classes (change w.machine) := by
      rw [store]
      exact starts.typed.stored.withSlots _
    obtain ⟨faithful, after⟩ := body.runs classes
      { w with machine := change w.machine, assigned := assigned w.assigned }
      ⟨starts.faithful, starts.unslipped, ⟨stored, enters classes w starts now⟩⟩ now
    refine ⟨faithful, fun unslipped => ?_⟩
    obtain ⟨classes', more, ⟨stored', framed⟩, holds⟩ := after unslipped
    exact ⟨classes', more, ⟨stored', leaves _ _ _ framed⟩, holds⟩

/-- An exit that lands gives a value. -/
theorem delivers_landing {land : Exit → Option Value} {x : Watched Value}
    {Q : List String → Value → Prop} (inner : Delivers σ Γ exits P x Q)
    (lands : ∀ classes e v t, land e = some v → exits e.target t → t.Proper →
      e.value.Fits classes t → Q classes v)
    (passes : ∀ e t, land e = none → exits e.target t → exits' e.target t) :
    Delivers σ Γ exits' P (Watched.landing land x) Q where
  logs w := by
    have longer := inner.logs w
    generalize ends : Watched.landing land x w = r
    cases Watched.landing_ends ends with
    | value run | lands run _ | passes run _ | stops run _ => rwa [run] at longer
  runs classes w starts now := by
    have reaches := inner.runs classes w starts now
    generalize ends : Watched.landing land x w = r
    cases Watched.landing_ends ends with
    | value run => rwa [run] at reaches
    | lands left found =>
      rw [left] at reaches
      exact reaches.imp fun classes' _ _ ⟨t, there, proper, fits⟩ =>
        lands classes' _ _ t found there proper fits
    | passes left missed =>
      rw [left] at reaches
      exact reaches.imp fun classes' _ _ ⟨t, there, rest⟩ => ⟨t, passes _ t missed there, rest⟩
    | stops stopped other =>
      rw [stopped] at reaches
      exact reaches.imp fun classes' _ _ => Justified.elsewhere fun e same => absurd same (other e)

/-- An evaluation in a frame of its own, which no exit leaves. -/
theorem delivers_inFrame {slots : Array Value} {assigned : List SlotId}
    (inner : Delivers σ Γ' exits' P x Q)
    (framed : ∀ classes w, Starts σ Γ classes w → P classes → ∀ m : Machine, m.slots = slots →
      Framed Γ' classes m assigned)
    (stays : ∀ w e w', Watched.inFrame slots assigned x w ≠ .error (.exit e) w') :
    Delivers σ Γ exits P (Watched.inFrame slots assigned x) Q where
  logs w := by
    have longer := inner.logs { w with machine := { w.machine with slots }, assigned }
    rw [Watched.inFrame]
    cases run : x { w with machine := { w.machine with slots }, assigned } <;>
      rw [run] at longer <;> exact longer
  runs classes w starts now := by
    have stays := stays w
    obtain ⟨faithful, after⟩ := inner.runs classes
      { w with machine := { w.machine with slots }, assigned }
      ⟨starts.faithful, starts.unslipped, ⟨starts.typed.stored.withSlots _,
        framed classes w starts now _ rfl⟩⟩ now
    simp only [Watched.inFrame] at stays ⊢
    -- The frame that is left is found as it was, but for more objects.
    have back {w' : Watch} {holds holds' : List String → Prop} (faithful : FaithfulLog w'.events)
        (after : Unslipped w'.events → ∃ classes', classes <+: classes' ∧ TypedAt σ Γ' classes' w' ∧
          holds classes') (implies : ∀ classes', holds classes' → holds' classes') :
        Reaches σ Γ classes { w' with
          machine := { w'.machine with slots := w.machine.slots }, assigned := w.assigned } holds' := by
      refine ⟨faithful, fun unslipped => ?_⟩
      obtain ⟨classes', more, typed, holds⟩ := after unslipped
      exact ⟨classes', more, ⟨typed.stored.withSlots _,
        (starts.typed.framed.mono more).congr rfl fun _ => Iff.rfl⟩, implies classes' holds⟩
    cases run : x { w with machine := { w.machine with slots }, assigned } with
    | ok a w' =>
      rw [run] at faithful after
      exact back faithful after fun _ => id
    | error stop w' =>
      rw [run] at faithful after stays
      cases stop with
      | exit e => exact absurd rfl (stays e _)
      | fault f => exact back faithful after fun _ => id
      | outOfFuel => exact back faithful after fun _ => id

end Combinators

section Values

variable {σ : Signatures} {Γ : Context} {exits : RunTarget → Ty → Prop} {p : Program} {fuel : Nat}
  {classes classes' : List String} {e : Expr} {v : Value} {es : List Expr}
  {run : Expr → Watched Value}

/-- The value is of the type of the expression. -/
def Expr.Gives (e : Expr) (classes : List String) (v : Value) : Prop :=
  ∃ t, e.ty = some t ∧ v.Fits classes t

theorem Expr.Gives.mono (gives : e.Gives classes v) (more : classes <+: classes') :
    e.Gives classes' v := by
  obtain ⟨t, typed, fits⟩ := gives
  exact ⟨t, typed, fits.mono more⟩

/-- The values are those of the expressions. -/
abbrev AllGive (es : List Expr) (classes : List String) (vs : List Value) : Prop :=
  List.Forall₂ (fun e v => Expr.Gives e classes v) es vs

theorem AllGive.mono {vs : List Value} (give : AllGive es classes vs)
    (more : classes <+: classes') : AllGive es classes' vs :=
  List.Forall₂.imp (fun _ _ gives => gives.mono more) give

theorem lasting_true : Lasting fun _ => True := fun _ _ _ _ => trivial

theorem lasting_and {P Q : List String → Prop} (first : Lasting P) (second : Lasting Q) :
    Lasting fun classes => P classes ∧ Q classes :=
  fun _ _ more ⟨p, q⟩ => ⟨first _ _ more p, second _ _ more q⟩

theorem lasting_gives (e : Expr) (v : Value) : Lasting fun classes => e.Gives classes v :=
  fun _ _ more gives => gives.mono more

theorem delivers_mapM {P : List String → Prop} (lasting : Lasting P)
    (each : ∀ e ∈ es, Delivers σ Γ exits (fun _ => True) (run e) e.Gives) :
    Delivers σ Γ exits P (es.mapM run) (AllGive es) := by
  induction es generalizing P with
  | nil => exact delivers_pure fun _ _ => .nil
  | cons e es ih =>
    rw [List.forall_mem_cons] at each
    rw [List.mapM_cons]
    refine delivers_bind lasting (each.1.imp (fun _ _ => trivial) (fun _ _ => id) fun _ _ => id)
      fun v => delivers_bind (lasting_and lasting (lasting_gives e v)) (ih
        (lasting_and lasting (lasting_gives e v)) each.2) fun vs => delivers_pure fun classes now => ?_
    exact .cons now.1.2 now.2

/-- The value of a sequence is that of its last part. -/
theorem delivers_sequence {before : List Expr} {last : Expr} (v : Value)
    (each : ∀ e ∈ before ++ [last], Delivers σ Γ exits (fun _ => True) (run e) e.Gives) :
    Delivers σ Γ exits (fun _ => True) (watchSequence run v (before ++ [last])) last.Gives := by
  induction before generalizing v with
  | nil =>
    exact delivers_bind lasting_true (each last (by simp)) fun v =>
      delivers_pure fun classes now => now.2
  | cons e before ih =>
    exact delivers_bind lasting_true (each e (by simp)) fun v =>
      (ih v fun e member => each e (by simp_all)).imp (fun _ _ => trivial) (fun _ _ => id)
        fun _ _ => id

/-- A value of its type is noted. -/
theorem delivers_note {P : List String → Prop} (before : ∀ classes, P classes → e.Gives classes v) :
    Delivers σ Γ exits P (do Watched.note e v; return v) e.Gives where
  logs _ := List.suffix_cons _ _
  runs classes w starts now := by
    have gives := before classes now
    obtain ⟨t, typed, fits⟩ := gives
    exact ⟨⟨starts.faithful, fun _ => ⟨t, typed, fits.isOf⟩⟩, fun _ =>
      ⟨classes, List.prefix_refl _, ⟨starts.typed.stored, starts.typed.framed⟩, t, typed, fits⟩⟩

/-- What is read is of its type, or the read slips. -/
theorem delivers_read {f : Watch → Value}
    (reads : ∀ classes w, Starts σ Γ classes w →
      ¬ Event.Slips ⟨e, f w, w.machine, w.assigned⟩ → e.Gives classes (f w)) :
    Delivers σ Γ exits (fun _ => True)
      ((do return f (← get) : Watched Value) >>= fun v => do Watched.note e v; return v) e.Gives where
  logs _ := List.suffix_cons _ _
  runs classes w starts _ := by
    have gives (unslipped : Unslipped (⟨e, f w, w.machine, w.assigned⟩ :: w.events)) :=
      reads classes w starts (unslipped _ List.mem_cons_self)
    refine ⟨⟨starts.faithful, fun unslipped => ?_⟩, fun unslipped => ⟨classes, List.prefix_refl _,
      ⟨starts.typed.stored, starts.typed.framed⟩, gives unslipped⟩⟩
    obtain ⟨t, typed, fits⟩ := gives unslipped
    exact ⟨t, typed, fits.isOf⟩

end Values

section Reads

variable {σ : Signatures} {Γ : Context} {exits : RunTarget → Ty → Prop} {ty : Option Ty}
  {classes : List String} {w : Watch}

/-- A variable that has not been set has nil, and its type has nil unless the read slips. -/
theorem gives_unset {e : Expr} {v : Value} (types : ∀ t ∈ e.ty, t.Proper) {t : Ty}
    (typed : e.ty = some t) (unset : Event.ReadsUnset ⟨e, v, w.machine, w.assigned⟩)
    (unslipped : ¬ Event.Slips ⟨e, v, w.machine, w.assigned⟩) : e.Gives classes .nil := by
  refine ⟨t, typed, Ty.isOf_nil (types t typed) ?_, nofun⟩
  refine Classical.byContradiction fun lacks => unslipped ⟨unset, fun u same => ?_⟩
  cases typed.symm.trans same
  exact lacks

theorem delivers_slot {s : SlotId} (safe : Expr.Safe σ Γ ⟨ty, .slot s⟩) :
    Delivers σ Γ exits (fun _ => True)
      ((do return (← get).machine.slot s : Watched Value) >>= fun v => do
        Watched.note ⟨ty, .slot s⟩ v
        return v) (Expr.Gives ⟨ty, .slot s⟩) := by
  have types := safe.proper
  obtain ⟨⟨t, typed, reads⟩, -, -, -, -⟩ := safe
  refine delivers_read (f := fun w => w.machine.slot s) fun classes w starts unslipped => ?_
  have framed := starts.typed.framed
  rcases reads with source | ⟨bound, -⟩
  · by_cases assigned : s ∈ w.assigned
    · exact ⟨t, typed, framed.slots s t assigned source⟩
    · have nil := framed.unassigned s assigned
      rw [nil] at unslipped ⊢
      exact gives_unset (w := w) types typed assigned unslipped
  · exact ⟨t, typed, framed.bound (s, t) bound⟩

theorem delivers_global {name : String} (safe : Expr.Safe σ Γ ⟨ty, .global name⟩) :
    Delivers σ Γ exits (fun _ => True)
      ((do return (← get).machine.global name : Watched Value) >>= fun v => do
        Watched.note ⟨ty, .global name⟩ v
        return v) (Expr.Gives ⟨ty, .global name⟩) := by
  have types := safe.proper
  obtain ⟨typed, -, -, -, -⟩ := safe
  refine delivers_read (f := fun w => w.machine.global name) fun classes w starts unslipped => ?_
  rw [Machine.global] at unslipped ⊢
  cases found : w.machine.globals.lookup name with
  | none =>
    rw [found] at unslipped
    exact gives_unset (w := w) types typed found unslipped
  | some v => exact ⟨_, typed, starts.typed.stored.globals name v found⟩

theorem delivers_constant {name : String} (safe : Expr.Safe σ Γ ⟨ty, .constant name⟩) :
    Delivers σ Γ exits (fun _ => True)
      ((do return (← get).machine.constant name : Watched Value) >>= fun v => do
        Watched.note ⟨ty, .constant name⟩ v
        return v) (Expr.Gives ⟨ty, .constant name⟩) := by
  have types := safe.proper
  obtain ⟨typed, -, -, -, -⟩ := safe
  refine delivers_read (f := fun w => w.machine.constant name) fun classes w starts unslipped => ?_
  rw [Machine.constant] at unslipped ⊢
  cases found : w.machine.constants.lookup name with
  | none =>
    rw [found] at unslipped
    exact gives_unset (w := w) types typed found unslipped
  | some v => exact ⟨_, typed, starts.typed.stored.constants name v found⟩

/-- A slot that holds an object of a class has one that has been made. -/
theorem Framed.object {m : Machine} {assigned : List SlotId} {s : SlotId} {c : String}
    (framed : Framed Γ classes m assigned) (holds : Γ.HoldsObject s c) :
    ∃ r, m.slot s = .object r ∧ classes[r.index]? = some r.className ∧ r.className = c := by
  obtain ⟨t, vs, bound, only⟩ := holds
  have ⟨isOf, listed⟩ := framed.bound (s, t) bound
  have member := Ty.isOfMember_only only isOf
  cases value : m.slot s with
  | object r =>
    rw [value] at member
    exact ⟨r, rfl, listed r value, (beq_iff_eq.1 member).symm⟩
  | _ =>
    rw [value] at member
    cases member

theorem delivers_instanceVar {object : SlotId} {name : String}
    (safe : Expr.Safe σ Γ ⟨ty, .instanceVar object name⟩) :
    Delivers σ Γ exits (fun _ => True)
      ((do
        let m := (← get).machine
        return m.instanceVar (m.slot object) name : Watched Value) >>= fun v => do
          Watched.note ⟨ty, .instanceVar object name⟩ v
          return v) (Expr.Gives ⟨ty, .instanceVar object name⟩) := by
  have types := safe.proper
  obtain ⟨⟨c, holds, typed⟩, -, -, -, -⟩ := safe
  refine delivers_read (f := fun w => w.machine.instanceVar (w.machine.slot object) name)
    fun classes w starts unslipped => ?_
  obtain ⟨r, slot, listed, rfl⟩ := starts.typed.framed.object holds
  rw [slot, Machine.instanceVar] at unslipped ⊢
  cases found : (w.machine.heap.getD r.index []).lookup name with
  | none =>
    rw [found] at unslipped
    exact gives_unset (w := w) types typed ⟨r, slot, found⟩ unslipped
  | some v => exact ⟨_, typed, starts.typed.stored.vars _ _ name v listed found⟩

end Reads

section Loops

variable {σ : Signatures} {Γ : Context} {exits exits' : RunTarget → Ty → Prop} {p : Program}
  {fuel : Nat} {ty : Option Ty} {id : LoopId} {condition body : Expr}

/-- A loop ends with nil when its condition fails, and with what a break out of it carries. -/
theorem delivers_while
    (again : Delivers σ Γ exits (fun _ => True) (p.watch fuel ⟨ty, .while id condition body⟩)
      (Expr.Gives ⟨ty, .while id condition body⟩))
    (tested : Delivers σ Γ exits (fun _ => True) (p.watch fuel condition) condition.Gives)
    (ran : Delivers σ Γ exits' (fun _ => True) (p.watch fuel body) body.Gives)
    (ends : ∀ w c w', p.watch fuel condition w = .ok c w' → c.countsAsTrue = false →
      ∃ u, ty = some u ∧ Value.nil.isOf u)
    (breaks : ∀ classes v t, exits' (.break (.loop id)) t → t.Proper → v.Fits classes t →
      Expr.Gives ⟨ty, .while id condition body⟩ classes v)
    (passes : ∀ target t, target ≠ .break (.loop id) → exits' target t → exits target t) :
    Delivers σ Γ exits (fun _ => True)
      (p.watchNode (p.watch fuel) ⟨ty, .while id condition body⟩)
      (Expr.Gives ⟨ty, .while id condition body⟩) where
  logs w := by
    have first := tested.logs w
    generalize ends' : p.watchNode (p.watch fuel) ⟨ty, .while id condition body⟩ w = r
    cases Program.watched_while_ends ends' with
    | untested run | fails run _ => rwa [run] at first
    | @round _ _ w₁ w₂ _ run _ round goes =>
      have second := ran.logs w₁
      rw [run] at first
      rw [round] at second
      exact goes ▸ (first.trans second).trans (again.logs w₂)
    | @breaks _ _ w₁ _ run _ left | @stops _ _ w₁ _ run _ left _ =>
      have second := ran.logs w₁
      rw [run] at first
      rw [left] at second
      exact first.trans second
  runs classes w starts _ := by
    have first := tested.runs classes w starts trivial
    generalize ends' : p.watchNode (p.watch fuel) ⟨ty, .while id condition body⟩ w = r
    cases Program.watched_while_ends ends' with
    | untested stopped =>
      rw [stopped] at first
      exact first.imp fun _ _ _ => Justified.elsewhere fun _ _ _ there => there
    | @fails c w₁ test fails =>
      rw [test] at first
      refine first.imp fun classes₁ _ _ _ => ?_
      obtain ⟨u, typed, nil⟩ := ends w c w₁ test fails
      exact ⟨u, typed, nil, by rintro r ⟨⟩⟩
    | @round _ _ w₁ w₂ _ test _ round goes =>
      rw [test] at first
      have second := ran.after (w := w₁) first
      rw [round] at second
      exact goes ▸ again.after (w := w₂) second
    | @breaks _ _ w₁ _ test _ left =>
      rw [test] at first
      have second := ran.after (w := w₁) first
      rw [left] at second
      exact second.imp fun classes₂ _ _ ⟨t, there, proper, fits⟩ =>
        breaks classes₂ _ t there proper fits
    | @stops _ _ w₁ _ test _ stopped other =>
      rw [test] at first
      have second := ran.after (w := w₁) first
      rw [stopped] at second
      refine second.imp fun classes₂ _ _ => Justified.elsewhere fun e same t => passes _ t ?_
      rintro own
      rcases e with _ | ⟨target, v⟩ <;> cases own
      exact other v same

theorem watch_true {w w' : Watch} {v : Value} (always : condition.node = .literal (.boolean true))
    (run : p.watch fuel condition w = .ok v w') : v.countsAsTrue = true := by
  have plain := watch_erases p fuel condition w
  rw [run] at plain
  exact eval_true always plain.symm

end Loops

section Calls

variable {σ : Signatures} {Γ : Context} {exits : RunTarget → Ty → Prop} {p : Program} {fuel : Nat}
  {classes : List String} {assigned : List SlotId} {machine : Machine} {vs : List Value}

/-- When a method starts, its frame is typed. -/
theorem Framed.entry {m : Method} {slots : List Slot} {r : Value}
    (untyped : Context.slotTy? ⟨slots, []⟩ m.selfSlot = none)
    (parameters : ∀ s ∈ m.parameters, ∃ t, Context.slotTy? ⟨slots, []⟩ s = some t)
    (receiver : r.Fits classes m.selfType)
    (arguments : ∀ b ∈ m.parameters.zip vs, ∀ t, Context.slotTy? ⟨slots, []⟩ b.1 = some t →
      b.2.Fits classes t) (same : machine.slots = m.entrySlots r vs) :
    Framed ⟨slots, [(m.selfSlot, m.selfType)]⟩ classes machine (m.entryAssigned vs) := by
  have blank : Framed ⟨slots, []⟩ classes
      ⟨Array.replicate m.locals.length .nil, #[], [], []⟩ [] := by
    refine ⟨fun s _ => ?_, by rintro _ _ ⟨⟩, by rintro _ ⟨⟩⟩
    rw [Machine.slot, Array.getD_eq_getD_getElem?, Array.getElem?_replicate]
    split <;> rfl
  have other : m.selfSlot ∉ boundSlots m.parameters vs := by
    intro bound
    obtain ⟨b, member, self⟩ := List.mem_map.1 bound
    obtain ⟨t, typed⟩ := parameters _ (List.of_mem_zip member).1
    rw [self, untyped] at typed
    cases typed
  have entered := (blank.setSlot (s := m.selfSlot) (v := r) (by rintro _ ⟨⟩) fun t typed => by
    rw [untyped] at typed
    cases typed).bindSlots (by rintro _ ⟨⟩) arguments
  refine (entered.bind [(m.selfSlot, m.selfType)] ?_).congr same fun s => ?_
  · refine List.forall_mem_singleton.2 ?_
    rw [Machine.slot_bindSlots _ other, Machine.slot_setSlot, if_pos rfl]
    exact receiver
  · simp [Method.entryAssigned, or_comm]

/-- The frame when an expanded method is entered. -/
theorem Framed.enterCall {c : ExpandedCall} {r : Value} {t : Ty}
    (framed : Framed Γ classes machine assigned) (apart : (Node.inline c).Apart Γ)
    (receiver : r.Fits classes t)
    (arguments : ∀ b ∈ c.parameters.zip vs, ∃ t, Γ.slotTy? b.1 = some t ∧ b.2.Fits classes t) :
    Framed (Γ.bind [(c.selfSlot, t)]) classes
      (((machine.clearSlots c.locals).setSlot c.selfSlot r).bindSlots c.parameters vs)
      (c.selfSlot :: boundSlots c.parameters vs ++ withoutSlots c.locals assigned) := by
  have spares {s : SlotId} (writes : s ∈ c.slots) : ∀ b ∈ Γ.bound, b.1 ≠ s :=
    fun b member same => apart.spares b member (same ▸ writes)
  have untyped := apart.untyped c.selfSlot List.mem_cons_self
  have bound {s : SlotId} (there : s ∈ boundSlots c.parameters vs) : s ∈ c.parameters := by
    obtain ⟨b, member, rfl⟩ := List.mem_map.1 there
    exact (List.of_mem_zip member).1
  have other : c.selfSlot ∉ boundSlots c.parameters vs := by
    intro there
    obtain ⟨b, member, self⟩ := List.mem_map.1 there
    obtain ⟨t, typed, -⟩ := arguments b member
    rw [self, untyped] at typed
    cases typed
  have entered := ((framed.clearSlots fun b member (inside : b.1 ∈ c.locals) =>
      spares (by simp [Entered.slots, Entered.locals, inside]) b member rfl).setSlot
        (s := c.selfSlot) (v := r) (spares (by simp [Entered.slots, Entered.bound]))
        fun t typed => by rw [untyped] at typed; cases typed).bindSlots
    (fun b member (inside : b.1 ∈ boundSlots c.parameters vs) =>
      spares (by simp [Entered.slots, Entered.bound, bound inside]) b member rfl)
    fun b member u typed => by
      obtain ⟨t, typed', fits⟩ := arguments b member
      cases typed.symm.trans typed'
      exact fits
  refine (entered.bind [(c.selfSlot, t)] ?_).congr rfl fun s => ?_
  · refine List.forall_mem_singleton.2 ?_
    rw [Machine.slot_bindSlots _ other, Machine.slot_setSlot, if_pos rfl]
    exact receiver
  · simp [or_left_comm]

/-- The frame when a block is entered. -/
theorem Framed.enterBlock {parameters locals : List SlotId} {arguments : List Expr} {body : Expr}
    (framed : Framed Γ classes machine assigned)
    (apart : (Node.yield parameters locals arguments body).Apart Γ)
    (fits : ∀ b ∈ parameters.zip vs, ∀ t, Γ.slotTy? b.1 = some t → b.2.Fits classes t) :
    Framed Γ classes ((machine.clearSlots locals).bindOrClear parameters vs)
      (withoutSlots (parameters.drop vs.length)
        (boundSlots parameters vs ++ withoutSlots locals assigned)) := by
  have spares {s : SlotId} (writes : s ∈ parameters ++ locals) : ∀ b ∈ Γ.bound, b.1 ≠ s :=
    fun b member same => apart.spares b member (same ▸ writes)
  exact (framed.clearSlots fun b member inside => spares (by simp [inside]) b member rfl).bindOrClear
    (fun b member inside => spares (by simp [inside]) b member rfl) fits

/-- What values are related to is kept where they are bound to slots of their own. -/
theorem related_of_zip {R : Value → Ty → Prop} {ts : List Ty} {slots : List SlotId} {s : SlotId}
    {v : Value} {t : Ty} (once : slots.Nodup) (related : List.Forall₂ R vs ts)
    (value : (s, v) ∈ slots.zip vs) (type : (s, t) ∈ slots.zip ts) : R v t := by
  induction related generalizing slots with
  | nil => simp at value
  | @cons w u vs ts first _ ih =>
    cases slots with
    | nil => cases value
    | cons x slots =>
      rw [List.nodup_cons] at once
      rw [List.zip_cons_cons, List.mem_cons] at value type
      rcases value with value | value <;> rcases type with type | type
      · cases value
        cases type
        exact first
      · cases value
        exact absurd (List.of_mem_zip type).1 once.1
      · cases type
        exact absurd (List.of_mem_zip value).1 once.1
      · exact ih once.2 value type

/-- The frame when operands are bound to slots of their own. -/
theorem Framed.bindTemps {scrutinees : List Expr} {temps : List SlotId} {arms : List Arm}
    (framed : Framed Γ classes machine assigned)
    (apart : (Node.dispatch scrutinees temps arms).Apart Γ) :
    Framed Γ classes (machine.bindSlots temps vs) (boundSlots temps vs ++ assigned) := by
  refine framed.bindSlots (fun b member inside => ?_) fun b member t typed => ?_
  · obtain ⟨c, bound, same⟩ := List.mem_map.1 inside
    exact apart.spares b member (same ▸ (List.of_mem_zip bound).1)
  · rw [apart.untyped b.1 (List.of_mem_zip member).1] at typed
    cases typed

/-- The frame when an arm is entered. -/
theorem Framed.enterArm {scrutinees : List Expr} {temps : List SlotId} {arms : List Arm}
    {ts : List Ty} (framed : Framed Γ classes machine assigned)
    (apart : (Node.dispatch scrutinees temps arms).Apart Γ) (enough : temps.length ≤ vs.length)
    (fits : List.Forall₂ (fun v t => v.Fits classes t) vs ts) :
    Framed (Γ.bind (temps.zip ts)) classes (machine.bindSlots temps vs)
      (boundSlots temps vs ++ assigned) := by
  refine (framed.bindTemps apart).bind _ fun b member => ?_
  have there : b.1 ∈ boundSlots temps vs := by
    rw [boundSlots_all enough]
    exact (List.of_mem_zip member).1
  exact related_of_zip (R := fun v t => v.Fits classes t) apart.once fits
    (Machine.slot_bindSlots_mem there) member

end Calls

section Evaluation

variable {σ : Signatures} {Γ : Context} {exits : RunTarget → Ty → Prop} {p : Program} {fuel : Nat}
  {classes : List String} {v : Value} {d e : Expr} {es : List Expr} {vs : List Value}
  {P : List String → Prop}

theorem lasting_allGive (es : List Expr) (vs : List Value) :
    Lasting fun classes => AllGive es classes vs := fun _ _ more give => give.mono more

theorem Delivers.under {α : Type} {x : Watched α} {Q : List String → α → Prop}
    (delivers : Delivers σ Γ exits (fun _ => True) x Q) : Delivers σ Γ exits P x Q :=
  delivers.imp (fun _ _ => trivial) (fun _ _ => id) fun _ _ => id

theorem Expr.Gives.le (gives : d.Gives classes v) (left : ∀ t ∈ d.ty, t.Proper)
    (right : ∀ t ∈ e.ty, t.Proper) (below : Ty.OptionLe d.ty e.ty) : e.Gives classes v := by
  obtain ⟨t, typed, fits⟩ := gives
  obtain ⟨u, typed', isOf⟩ := Ty.isOf_optionLe left right below typed fits.isOf
  exact ⟨u, typed', fits.retype isOf⟩

/-- The values of operands are of their types. -/
theorem AllGive.fits {ts : List Ty} (give : AllGive es classes vs)
    (typed : es.map (·.ty) = ts.map some) : List.Forall₂ (fun v t => v.Fits classes t) vs ts := by
  induction give generalizing ts with
  | nil =>
    cases ts with
    | nil => exact .nil
    | cons t ts => cases typed
  | cons first _ ih =>
    cases ts with
    | nil => cases typed
    | cons t ts =>
      rw [List.map_cons, List.map_cons, List.cons.injEq] at typed
      obtain ⟨u, same, fits⟩ := first
      cases same.symm.trans typed.1
      exact .cons fits (ih typed.2)

theorem AllGive.ordinary (give : AllGive es classes vs) (known : ∀ c ∈ classes, c ∉ valueClasses) :
    ∀ v ∈ vs, v.Ordinary := by
  induction give with
  | nil => exact List.forall_mem_nil _
  | cons first _ ih =>
    obtain ⟨t, -, fits⟩ := first
    exact List.forall_mem_cons.2 ⟨fits.ordinary known, ih⟩

theorem AllGive.zip {slots : List SlotId} {b : SlotId × Value} (give : AllGive es classes vs)
    (bound : b ∈ slots.zip vs) : ∃ e, (b.1, e) ∈ slots.zip es ∧ e.Gives classes b.2 := by
  induction give generalizing slots with
  | nil => simp at bound
  | @cons e v es vs first _ ih =>
    cases slots with
    | nil => cases bound
    | cons s slots =>
      rw [List.zip_cons_cons] at bound
      rw [List.zip_cons_cons]
      rcases List.mem_cons.1 bound with rfl | later
      · exact ⟨e, List.mem_cons_self, first⟩
      · obtain ⟨d, there, gives⟩ := ih later
        exact ⟨d, List.mem_cons_of_mem _ there, gives⟩

/-- What a slot covers fits it. -/
theorem Context.Stores.fits {s : SlotId} (stores : Γ.Stores s e.ty) (gives : e.Gives classes v)
    (types : ∀ t ∈ e.ty, t.Proper) (proper : Γ.Proper) :
    ∃ u, Γ.slotTy? s = some u ∧ v.Fits classes u := by
  obtain ⟨t, u, typed, entry, below⟩ := stores
  obtain ⟨t', typed', fits⟩ := gives
  cases typed.symm.trans typed'
  exact ⟨u, entry, fits.le (types t typed) (proper s u entry) below⟩

theorem bound_fits {slots : List SlotId} (give : AllGive es classes vs) (proper : Γ.Proper)
    (types : ∀ e ∈ es, ∀ t ∈ e.ty, t.Proper) (stores : ∀ b ∈ slots.zip es, Γ.Stores b.1 b.2.ty) :
    ∀ b ∈ slots.zip vs, ∃ u, Γ.slotTy? b.1 = some u ∧ b.2.Fits classes u := by
  intro b member
  obtain ⟨e, there, gives⟩ := give.zip member
  exact (stores _ there).fits gives (types e (List.of_mem_zip there).2) proper

variable (safe : p.Safe σ)
  (inner : ∀ (Γ : Context) (d : Expr), Γ.Proper → d.Safe σ Γ →
    Delivers σ Γ d.Leaves (fun _ => True) (p.watch fuel d) d.Gives)

include safe inner

/-- A method that gets operands of its types gives a value of its result type. -/
theorem delivers_method {m : Method} (member : m ∈ p.allMethods) {r : Value}
    (receiver : ∀ classes, P classes → r.Fits classes m.selfType)
    (arguments : ∀ classes, P classes → ∀ b ∈ m.parameters.zip vs,
      ∃ u, Context.slotTy? ⟨m.locals, []⟩ b.1 = some u ∧ b.2.Fits classes u) :
    Delivers σ Γ exits P (m.watch (p.watch fuel) r vs)
      (fun classes v => ∃ t, m.returnType = some t ∧ v.Fits classes t) := by
  have checked := safe.methods m member
  obtain ⟨slots, proper, body, untyped, parameters⟩ := checked.body
  have result : ∀ t ∈ m.returnType, t.Proper := fun t there =>
    checked.types t (List.mem_cons_of_mem _ (List.mem_append_left _ (Option.mem_toList.2 there)))
  have landed : Delivers σ ⟨slots, [(m.selfSlot, m.selfType)]⟩ (fun _ _ => True) P
      (Watched.landing (Exit.landInFrame m.frame) (p.watch fuel m.body))
      fun classes v => ∃ t, m.returnType = some t ∧ v.Fits classes t := by
    refine delivers_landing ((inner ⟨slots, [(m.selfSlot, m.selfType)]⟩ _ proper body).imp (fun _ _ => trivial) (fun _ _ => id)
      fun classes v ⟨t, typed, fits⟩ => ?_) (fun classes e v t lands leaves proper fits => ?_)
      fun _ _ _ _ => trivial
    · obtain ⟨u, typed', isOf⟩ := Ty.isOf_optionLe body.proper result checked.result typed fits.isOf
      exact ⟨u, typed', fits.retype isOf⟩
    · obtain ⟨here, rfl⟩ := Exit.landInFrame_some lands
      obtain ⟨u, typed, below⟩ := checked.returns t (here ▸ leaves)
      exact ⟨u, typed, fits.le proper (result u typed) below⟩
  refine delivers_inFrame landed (fun classes w _ now machine same => ?_) fun w e w' left => ?_
  · refine Framed.entry untyped (fun s member => ?_) (receiver classes now)
      (fun b member t typed => ?_) same
    · obtain ⟨t, typed, -⟩ := parameters s member
      exact ⟨t, typed⟩
    · obtain ⟨u, typed', fits⟩ := arguments classes now b member
      obtain ⟨t', source, local'⟩ := parameters b.1 (List.of_mem_zip member).1
      cases typed.symm.trans source
      cases typed'.symm.trans local'
      exact fits
  · have whole : m.Scoped p.arity := by
      rcases List.mem_cons.1 member with rfl | listed
      · exact safe.inScope.main
      · exact safe.inScope.methods m (Array.mem_toList_iff.1 listed)
    have nothing : Confined ⟨[], [], [], 0, p.arity⟩ (m.invoke (p.eval fuel) r vs) :=
      invoke_confined (eval_confined safe.inScope fuel rfl whole.body) _ _
    have plain := erases_method (watch_erases p fuel) m r vs w
    rw [Method.watch, left] at plain
    have allowed := nothing _ _ _ plain.symm
    cases e with
    | «return» frame w => cases allowed
    | «break» target w => cases target <;> cases allowed


variable {ty : Option Ty} (proper : Γ.Proper)

/-- One step of the evaluation of the expression is faithful. -/
abbrev Expr.Steps (σ : Signatures) (Γ : Context) (p : Program) (fuel : Nat) (e : Expr) : Prop :=
  Delivers σ Γ e.Leaves (fun _ => True) (p.watchNode (p.watch fuel) e) e.Gives

omit safe

include proper in
theorem delivers_operand (checked : e.Safe σ Γ) (member : d ∈ e.node.operands)
    (part : (Γ, d) ∈ e.node.partsIn Γ) : Delivers σ Γ e.Leaves P (p.watch fuel d) d.Gives := by
  cases checked with
  | intro rule types apart objects parts =>
    exact (inner Γ d proper (parts _ part)).imp (fun _ _ => trivial)
      (fun _ _ leaves => .operand member leaves) fun _ _ => id

include proper in
theorem delivers_operands (checked : e.Safe σ Γ) (lasting : Lasting P)
    (members : ∀ d ∈ es, d ∈ e.node.operands ∧ (Γ, d) ∈ e.node.partsIn Γ) :
    Delivers σ Γ e.Leaves P (es.mapM (p.watch fuel)) (AllGive es) :=
  delivers_mapM lasting fun d member =>
    delivers_operand inner proper checked (members d member).1 (members d member).2

omit inner in
theorem Expr.Safe.part {q : Context × Expr} (checked : e.Safe σ Γ) (part : q ∈ e.node.partsIn Γ) :
    q.2.Safe σ q.1 := by
  cases checked with
  | intro rule types apart objects parts => exact parts q part

section Assignments

variable {value : Expr} {name : String} {s : SlotId}

include proper

theorem assign_steps (checked : Expr.Safe σ Γ ⟨ty, .assign s value⟩) :
    Expr.Steps σ Γ p fuel ⟨ty, .assign s value⟩ := by
  have part : (Γ, value) ∈ (Node.assign s value).partsIn Γ := List.mem_cons_self
  have operand := delivers_operand (P := fun _ => True) inner proper checked List.mem_cons_self part
  have types := (checked.part part).proper
  obtain ⟨⟨same, stores⟩, -, apart, -, -⟩ := checked
  refine delivers_bind lasting_true operand fun v => delivers_enter Γ (fun _ => rfl)
    (fun classes w starts now => ?_) (fun _ _ _ => id) (delivers_pure fun classes now => ?_)
  · obtain ⟨u, entry, fits⟩ := stores.fits now.2 types proper
    refine starts.typed.framed.setSlot (fun b member here => apart.spares b member ?_)
      fun t typed => ?_
    · exact here ▸ List.mem_cons_self
    · cases typed.symm.trans entry
      exact fits
  · obtain ⟨t, typed, fits⟩ := now.2
    exact ⟨t, same.trans typed, fits⟩

/-- An assignment that changes no slot gives the value that it stores. -/
theorem delivers_store {node : Node} {change : Value → Machine → Machine}
    (checked : Expr.Safe σ Γ ⟨ty, node⟩) (member : value ∈ node.operands)
    (part : (Γ, value) ∈ node.partsIn Γ) (slots : ∀ v m, (change v m).slots = m.slots)
    (same : ty = value.ty)
    (stored : ∀ classes w v t, Starts σ Γ classes w → value.ty = some t → t.Proper →
      v.Fits classes t → Stored σ classes (change v w.machine)) :
    Delivers σ Γ (Expr.Leaves ⟨ty, node⟩) (fun _ => True)
      (do
        let v ← p.watch fuel value
        Watched.lift (modify (change v))
        return v) (Expr.Gives ⟨ty, node⟩) := by
  refine delivers_bind lasting_true (delivers_operand inner proper checked member part) fun v =>
    delivers_bind (lasting_and lasting_true (lasting_gives value v))
      (delivers_modify (slots v) fun classes w starts now => ?_) fun _ =>
        delivers_pure fun classes now => ?_
  · obtain ⟨t, typed, fits⟩ := now.2
    exact stored classes w v t starts typed ((checked.part part).proper t typed) fits
  · obtain ⟨t, typed, fits⟩ := now.1.2
    exact ⟨t, same.trans typed, fits⟩

theorem assignGlobal_steps (signatures : σ.Proper)
    (checked : Expr.Safe σ Γ ⟨ty, .assignGlobal name value⟩) :
    Expr.Steps σ Γ p fuel ⟨ty, .assignGlobal name value⟩ := by
  have ⟨⟨same, t, u, typed, entry, below⟩, _, _, _, _⟩ := checked
  refine delivers_store inner proper checked List.mem_cons_self List.mem_cons_self (fun _ _ => rfl)
    same fun classes w v t' starts typed' sort fits => ?_
  cases typed.symm.trans typed'
  exact starts.typed.stored.setGlobal signatures fits sort entry below

theorem assignConstant_steps (signatures : σ.Proper)
    (checked : Expr.Safe σ Γ ⟨ty, .assignConstant name value⟩) :
    Expr.Steps σ Γ p fuel ⟨ty, .assignConstant name value⟩ := by
  have ⟨⟨same, t, u, typed, entry, below⟩, _, _, _, _⟩ := checked
  refine delivers_store inner proper checked List.mem_cons_self List.mem_cons_self (fun _ _ => rfl)
    same fun classes w v t' starts typed' sort fits => ?_
  cases typed.symm.trans typed'
  exact starts.typed.stored.setConstant signatures fits sort entry below

theorem assignInstanceVar_steps (signatures : σ.Proper)
    (checked : Expr.Safe σ Γ ⟨ty, .assignInstanceVar s name value⟩) :
    Expr.Steps σ Γ p fuel ⟨ty, .assignInstanceVar s name value⟩ := by
  have ⟨⟨same, c, t, u, holds, typed, entry, below⟩, _, _, _, _⟩ := checked
  refine delivers_store inner proper checked List.mem_cons_self List.mem_cons_self (fun v m => ?_)
    same fun classes w v t' starts typed' sort fits => ?_
  · cases m.slot s <;> rfl
  · obtain ⟨r, slot, listed, rfl⟩ := starts.typed.framed.object holds
    cases typed.symm.trans typed'
    rw [slot]
    exact starts.typed.stored.setInstanceVar signatures fits sort listed entry below

end Assignments

section Branches

variable {condition left right body : Expr} {parts : List Expr} {id : LoopId}

include proper

theorem sequence_steps (checked : Expr.Safe σ Γ ⟨ty, .sequence parts⟩) :
    Expr.Steps σ Γ p fuel ⟨ty, .sequence parts⟩ := by
  have operand {d : Expr} (member : d ∈ parts) := delivers_operand (d := d) (P := fun _ => True)
    inner proper checked member (by simp [Node.partsIn, Node.parts, Node.operands, member])
  obtain ⟨⟨before, last, rfl, -, same⟩, -, -, -, -⟩ := checked
  exact (delivers_sequence .nil fun d member => operand member).imp (fun _ => id) (fun _ _ => id)
    fun classes v => Exists.imp fun t gives => ⟨same.trans gives.1, gives.2⟩

/-- Either of two operands is as promised if the types of both are below. -/
theorem delivers_branch (checked : e.Safe σ Γ) (member : d ∈ e.node.operands)
    (part : (Γ, d) ∈ e.node.partsIn Γ) (below : Ty.OptionLe d.ty e.ty) :
    Delivers σ Γ e.Leaves P (p.watch fuel d) e.Gives :=
  (delivers_operand inner proper checked member part).imp (fun _ => id) (fun _ _ => id)
    fun _ _ gives => gives.le (checked.part part).proper checked.proper below

theorem conditional_steps (checked : Expr.Safe σ Γ ⟨ty, .conditional condition left right⟩) :
    Expr.Steps σ Γ p fuel ⟨ty, .conditional condition left right⟩ := by
  have branch {d : Expr} (member : d ∈ [condition, left, right]) :
      (Γ, d) ∈ (Node.conditional condition left right).partsIn Γ :=
    List.mem_map_of_mem (List.mem_append_left _ member)
  have types {d : Expr} (member : d ∈ [condition, left, right]) := (checked.part (branch member)).proper
  obtain ⟨-, same⟩ : condition.ty.isSome ∧ ty = Ty.mergeOption left.ty right.ty := by
    cases checked with
    | intro rule types apart objects parts => exact rule
  refine delivers_bind lasting_true
    (delivers_operand inner proper checked (by simp [Node.operands]) (branch (by simp)))
    fun v => ?_
  split
  · refine delivers_branch inner proper checked (by simp [Node.operands]) (branch (by simp)) ?_
    exact same ▸ Ty.le_mergeOption_left (types (by simp)) (types (by simp))
  · refine delivers_branch inner proper checked (by simp [Node.operands]) (branch (by simp)) ?_
    exact same ▸ Ty.le_mergeOption_right (types (by simp)) (types (by simp))

theorem and_steps (checked : Expr.Safe σ Γ ⟨ty, .and left right⟩) :
    Expr.Steps σ Γ p fuel ⟨ty, .and left right⟩ := by
  have branch {d : Expr} (member : d ∈ [left, right]) : (Γ, d) ∈ (Node.and left right).partsIn Γ :=
    List.mem_map_of_mem (List.mem_append_left _ member)
  have types {d : Expr} (member : d ∈ [left, right]) := (checked.part (branch member)).proper
  obtain ⟨-, same⟩ : left.ty.isSome ∧ ty = Ty.mergeOption right.ty left.ty := by
    cases checked with
    | intro rule types apart objects parts => exact rule
  refine delivers_bind lasting_true
    (delivers_operand inner proper checked (by simp [Node.operands]) (branch (by simp)))
    fun v => ?_
  split
  · refine delivers_branch inner proper checked (by simp [Node.operands]) (branch (by simp)) ?_
    exact same ▸ Ty.le_mergeOption_left (types (by simp)) (types (by simp))
  · refine delivers_pure fun classes now => now.2.le (types (by simp)) checked.proper ?_
    exact same ▸ Ty.le_mergeOption_right (types (by simp)) (types (by simp))

theorem or_steps (checked : Expr.Safe σ Γ ⟨ty, .or left right⟩) :
    Expr.Steps σ Γ p fuel ⟨ty, .or left right⟩ := by
  have branch {d : Expr} (member : d ∈ [left, right]) : (Γ, d) ∈ (Node.or left right).partsIn Γ :=
    List.mem_map_of_mem (List.mem_append_left _ member)
  have types {d : Expr} (member : d ∈ [left, right]) := (checked.part (branch member)).proper
  obtain ⟨-, same⟩ : left.ty.isSome ∧ ty = Ty.mergeOption right.ty left.ty := by
    cases checked with
    | intro rule types apart objects parts => exact rule
  refine delivers_bind lasting_true
    (delivers_operand inner proper checked (by simp [Node.operands]) (branch (by simp)))
    fun v => ?_
  split
  · refine delivers_pure fun classes now => now.2.le (types (by simp)) checked.proper ?_
    exact same ▸ Ty.le_mergeOption_right (types (by simp)) (types (by simp))
  · refine delivers_branch inner proper checked (by simp [Node.operands]) (branch (by simp)) ?_
    exact same ▸ Ty.le_mergeOption_left (types (by simp)) (types (by simp))

theorem not_steps (checked : Expr.Safe σ Γ ⟨ty, .not left⟩) :
    Expr.Steps σ Γ p fuel ⟨ty, .not left⟩ := by
  have operand := delivers_operand (P := fun _ => True) inner proper checked List.mem_cons_self
    (List.mem_cons_self (a := (Γ, left)))
  obtain ⟨⟨-, same⟩, -, -, -, -⟩ := checked
  exact delivers_bind lasting_true operand fun v => delivers_pure fun classes _ =>
    ⟨_, same, .plain rfl (by rintro _ ⟨⟩)⟩

theorem while_steps (checked : Expr.Safe σ Γ ⟨ty, .while id condition body⟩) :
    Expr.Steps σ Γ p fuel ⟨ty, .while id condition body⟩ := by
  have tested := delivers_operand (d := condition) (P := fun _ => True) inner proper checked
    List.mem_cons_self (by simp [Node.partsIn, Node.parts, Node.operands])
  have ran := inner Γ body proper (checked.part (q := (Γ, body))
    (by simp [Node.partsIn, Node.parts, Node.landing?]))
  have again := inner Γ _ proper checked
  have types := checked.proper
  obtain ⟨⟨-, breaks, nil⟩, -, -, -, -⟩ := checked
  refine delivers_while again tested ran (fun w c w' run fails => ?_)
    (fun classes v t leaves sort fits => ?_) fun target t other leaves => ?_
  · have tests : condition.node ≠ .literal (.boolean true) := fun always =>
      absurd (watch_true always run) (by simp [fails])
    obtain ⟨u, typed, below⟩ := nil tests
    exact ⟨u, typed, Ty.isOf_nil (types u typed) below⟩
  · obtain ⟨u, typed, below⟩ := breaks t leaves
    exact ⟨u, typed, fits.le sort (types u typed) below⟩
  · exact .landing rfl (by simpa using other) leaves

end Branches

section Sends

variable {receiver value : Expr} {arguments : List Expr} {callee : InstanceId} {c name lib : String}
  {operation : Primitive} {initializer : Option InstanceId} {frame : FrameId} {target : BreakTarget}

omit inner in
/-- A method that the rules have found is one of the program. -/
theorem found_method {m : Method} (safe : p.Safe σ) (found : σ.method? callee = some m) :
    m ∈ p.allMethods ∧ Watched.lift (p.methodOrFault callee) = pure m := by
  rw [safe.method?] at found
  refine ⟨List.mem_cons_of_mem _ (Array.mem_toList_iff.2 (Program.method?_mem found)), ?_⟩
  rw [Program.methodOrFault, found]
  rfl

include proper

theorem primitive_steps (checked : Expr.Safe σ Γ ⟨ty, .primitive operation receiver arguments⟩) :
    Expr.Steps σ Γ p fuel ⟨ty, .primitive operation receiver arguments⟩ := by
  have operand {d : Expr} (member : d ∈ receiver :: arguments) :
      (Γ, d) ∈ (Node.primitive operation receiver arguments).partsIn Γ :=
    List.mem_map_of_mem (List.mem_append_left _ member)
  have ⟨⟨name, t, ts, typed, typeds, resolved, same⟩, _, _, _, _⟩ := checked
  refine delivers_bind lasting_true (delivers_operand inner proper checked List.mem_cons_self
    (operand List.mem_cons_self)) fun r =>
      delivers_bind (lasting_and lasting_true (lasting_gives receiver r))
        (delivers_operands inner proper checked
          (lasting_and lasting_true (lasting_gives receiver r)) fun d member =>
            ⟨List.mem_cons_of_mem _ member, operand (List.mem_cons_of_mem _ member)⟩) fun vs => ?_
  have yields {classes : List String} {w : Watch} (starts : Starts σ Γ classes w)
      (first : receiver.Gives classes r) (others : AllGive arguments classes vs) :
      Primitive.Yields (operation.apply r vs) (operation.resultTy t ts) := by
    obtain ⟨t', typed', fits⟩ := first
    cases typed.symm.trans typed'
    have all := others.fits typeds
    refine Primitive.apply_yields fits.isOf (all.imp fun _ _ fits => fits.isOf) ?_ resolved
    have known := starts.typed.stored.ordinary
    exact List.forall_mem_cons.2 ⟨fits.ordinary known, others.ordinary known⟩
  refine delivers_ofExcept (fun classes w starts now v run => ?_) fun classes w starts now f run => ?_
  · rcases yields starts now.1.2 now.2 with failed | ⟨w, made, fits, plain⟩
    · cases run.symm.trans failed
    · cases run.symm.trans made
      exact ⟨_, same, .plain fits plain⟩
  · rcases yields starts now.1.2 now.2 with failed | ⟨w, made, -, -⟩
    · cases run.symm.trans failed
      trivial
    · cases run.symm.trans made

theorem foreign_steps (checked : Expr.Safe σ Γ ⟨ty, .foreign lib name arguments⟩) :
    Expr.Steps σ Γ p fuel ⟨ty, .foreign lib name arguments⟩ :=
  delivers_bind lasting_true (delivers_operands inner proper checked lasting_true fun _ member =>
    ⟨member, List.mem_map_of_mem (List.mem_append_left _ member)⟩) fun _ =>
      delivers_fault fun _ _ _ _ => trivial

theorem return_steps (checked : Expr.Safe σ Γ ⟨ty, .return frame value⟩) :
    Expr.Steps σ Γ p fuel ⟨ty, .return frame value⟩ := by
  have part : (Γ, value) ∈ (Node.return frame value).partsIn Γ := List.mem_cons_self
  refine delivers_bind lasting_true
    (delivers_operand inner proper checked List.mem_cons_self part) fun v =>
      delivers_exit fun classes now => ?_
  obtain ⟨t, typed, fits⟩ := now.2
  exact ⟨t, .return typed, (checked.part part).proper t typed, fits⟩

theorem break_steps (checked : Expr.Safe σ Γ ⟨ty, .break target value⟩) :
    Expr.Steps σ Γ p fuel ⟨ty, .break target value⟩ := by
  have part : (Γ, value) ∈ (Node.break target value).partsIn Γ := List.mem_cons_self
  refine delivers_bind lasting_true
    (delivers_operand inner proper checked List.mem_cons_self part) fun v =>
      delivers_exit fun classes now => ?_
  obtain ⟨t, typed, fits⟩ := now.2
  exact ⟨t, .break typed, (checked.part part).proper t typed, fits⟩

theorem call_steps (safe : p.Safe σ) (checked : Expr.Safe σ Γ ⟨ty, .call callee receiver arguments⟩) :
    Expr.Steps σ Γ p fuel ⟨ty, .call callee receiver arguments⟩ := by
  have operand {d : Expr} (member : d ∈ receiver :: arguments) :
      (Γ, d) ∈ (Node.call callee receiver arguments).partsIn Γ :=
    List.mem_map_of_mem (List.mem_append_left _ member)
  have types {d : Expr} (member : d ∈ receiver :: arguments) := (checked.part (operand member)).proper
  obtain ⟨⟨m, found, same, ⟨t, typed, below⟩, binds⟩, -, -, -, -⟩ := id checked
  obtain ⟨member, present⟩ := found_method safe found
  have method := safe.methods m member
  simp only [Expr.Steps, Program.watchNode, present, pure_bind]
  refine delivers_bind lasting_true (delivers_operand inner proper checked List.mem_cons_self
    (operand List.mem_cons_self)) fun r =>
      delivers_bind (lasting_and lasting_true (lasting_gives receiver r))
        (delivers_operands inner proper checked
          (lasting_and lasting_true (lasting_gives receiver r)) fun d member =>
            ⟨List.mem_cons_of_mem _ member, operand (List.mem_cons_of_mem _ member)⟩) fun vs => ?_
  refine (delivers_method safe inner member (fun classes now => ?_) fun classes now => ?_).imp
    (fun _ => id) (fun _ _ => id) fun classes v => Exists.imp fun u gives =>
      ⟨same.trans gives.1, gives.2⟩
  · obtain ⟨t', typed', fits⟩ := now.1.2
    cases typed.symm.trans typed'
    exact fits.le (types List.mem_cons_self t typed) (method.types _ List.mem_cons_self) below
  · exact bound_fits now.2 method.locals (fun e member => types (List.mem_cons_of_mem _ member))
      binds.stores

theorem construct_steps (safe : p.Safe σ)
    (checked : Expr.Safe σ Γ ⟨ty, .construct c initializer arguments⟩) :
    Expr.Steps σ Γ p fuel ⟨ty, .construct c initializer arguments⟩ := by
  have operand {d : Expr} (member : d ∈ arguments) :
      (Γ, d) ∈ (Node.construct c initializer arguments).partsIn Γ :=
    List.mem_map_of_mem (List.mem_append_left _ member)
  have types {d : Expr} (member : d ∈ arguments) := (checked.part (operand member)).proper
  have ⟨rule, _, _, objects, _⟩ := checked
  refine delivers_bind lasting_true (delivers_operands inner proper checked lasting_true
    fun d member => ⟨member, operand member⟩) fun vs =>
      delivers_bind (lasting_and lasting_true (lasting_allGive arguments vs))
        (delivers_allocate (objects c rfl)) fun r => ?_
  cases initializer with
  | none => exact delivers_pure fun classes now => ⟨_, rule.2, now.2⟩
  | some id =>
    obtain ⟨m, found, below, same, binds⟩ := rule
    obtain ⟨member, present⟩ := found_method safe found
    have method := safe.methods m member
    simp only [present, pure_bind]
    refine delivers_bind (lasting_and (lasting_and lasting_true (lasting_allGive arguments vs))
      fun _ _ more fits => fits.mono more)
      (delivers_method safe inner member (fun classes now => ?_) fun classes now => ?_)
      fun _ => delivers_pure fun classes now => ?_
    · exact now.2.le (safe.signatures.objects c) (method.types _ List.mem_cons_self) below
    · exact bound_fits now.1.2 method.locals (fun e member => types member) binds.stores
    · obtain ⟨t, returns, -⟩ := now.2
      exact ⟨σ.objectTy c, by rw [same, returns]; rfl, now.1.2⟩

end Sends

section Scopes

variable {call : ExpandedCall} {parameters locals temps : List SlotId} {arguments : List Expr}
  {body : Expr} {scrutinees : List Expr} {arms : List Arm}

include proper

theorem inline_steps (checked : Expr.Safe σ Γ ⟨ty, .inline call⟩) :
    Expr.Steps σ Γ p fuel ⟨ty, .inline call⟩ := by
  have operand {d : Expr} (member : d ∈ call.receiver :: call.arguments) :
      (Γ, d) ∈ (Node.inline call).partsIn Γ :=
    List.mem_append_left _ (List.mem_map_of_mem member)
  have types {d : Expr} (member : d ∈ call.receiver :: call.arguments) :=
    (checked.part (operand member)).proper
  have whole := checked.proper
  have ⟨⟨receives, binds, returns, breaks, same⟩, all, apart, _, _⟩ := checked
  obtain ⟨t, received⟩ := Option.isSome_iff_exists.1 receives
  have entered := checked.part (q := (Γ.bind [(call.selfSlot, t)], call.body))
    (List.mem_append_right _ (by simp [received]))
  have annotated {u : Ty} (member : u ∈ call.breakType.toList ++ call.returnType.toList) : u.Proper :=
    all u (List.mem_append_right _ member)
  have returned : ∀ u ∈ call.returnType, u.Proper := fun u there =>
    annotated (List.mem_append_right _ (Option.mem_toList.2 there))
  have broken : ∀ u ∈ call.breakType, u.Proper := fun u there =>
    annotated (List.mem_append_left _ (Option.mem_toList.2 there))
  have landed : ∀ u ∈ Ty.mergeOption call.returnType call.breakType, u.Proper :=
    Ty.mergeOption_proper returned broken
  have normally : Ty.OptionLe call.body.ty ty := same ▸ Ty.le_mergeOption_left entered.proper landed
  have exits : Ty.OptionLe (Ty.mergeOption call.returnType call.breakType) ty :=
    same ▸ Ty.le_mergeOption_right entered.proper landed
  have lands {classes : List String} {v : Value} {u : Ty} {a : Option Ty} (sort : ∀ u ∈ a, u.Proper)
      (below : Ty.OptionLe a (Ty.mergeOption call.returnType call.breakType)) (proper : u.Proper)
      (fits : v.Fits classes u) (covers : ∃ w, a = some w ∧ u ≤ w) :
      Expr.Gives ⟨ty, .inline call⟩ classes v := by
    obtain ⟨w, typed, under⟩ := covers
    obtain ⟨x, typed', isOf⟩ := Ty.isOf_optionLe sort landed below typed
      (fits.le proper (sort w typed) under).isOf
    obtain ⟨y, typed'', isOf⟩ := Ty.isOf_optionLe landed whole exits typed' isOf
    exact ⟨y, typed'', fits.retype isOf⟩
  refine delivers_bind lasting_true (delivers_operand inner proper checked List.mem_cons_self
    (operand List.mem_cons_self)) fun r =>
      delivers_bind (lasting_and lasting_true (lasting_gives call.receiver r))
        (delivers_operands inner proper checked
          (lasting_and lasting_true (lasting_gives call.receiver r)) fun d member =>
            ⟨List.mem_cons_of_mem _ member, operand (List.mem_cons_of_mem _ member)⟩) fun vs => ?_
  have ran : Delivers σ (Γ.bind [(call.selfSlot, t)]) call.body.Leaves
      (fun classes => (True ∧ call.receiver.Gives classes r) ∧ AllGive call.arguments classes vs)
      (p.watch fuel call.body) (Expr.Gives ⟨ty, .inline call⟩) :=
    (inner (Γ.bind [(call.selfSlot, t)]) _ proper entered).imp (fun _ _ => trivial)
      (fun _ _ => id) fun _ _ gives => gives.le entered.proper whole normally
  refine delivers_enter (Γ.bind [(call.selfSlot, t)]) (fun m => ?_) (fun classes w starts now => ?_)
    (fun _ _ _ framed => framed.unbind)
    (delivers_landing ran (fun classes e v u found leaves sort fits => ?_) fun e u missed leaves => ?_)
  · exact Machine.slots_only (n := (m.clearSlots call.locals).setSlot call.selfSlot r)
      (Machine.slots_only (Machine.clearSlots_eq _) rfl) (Machine.bindSlots_eq _ _)
  · obtain ⟨t', typed', fits⟩ := now.1.2
    cases received.symm.trans typed'
    exact starts.typed.framed.enterCall apart fits (bound_fits now.2 proper
      (fun e member => types (List.mem_cons_of_mem _ member)) binds.stores)
  · obtain ⟨here | here, rfl⟩ := Exit.landAtCall_some found
    · exact lands returned (Ty.le_mergeOption_left returned broken) sort fits
        (returns u (here ▸ leaves))
    · exact lands broken (Ty.le_mergeOption_right returned broken) sort fits
        (breaks u (here ▸ leaves))
  · exact .landing rfl (Exit.landAtCall_none missed) leaves

theorem yield_steps (checked : Expr.Safe σ Γ ⟨ty, .yield parameters locals arguments body⟩) :
    Expr.Steps σ Γ p fuel ⟨ty, .yield parameters locals arguments body⟩ := by
  have operand {d : Expr} (member : d ∈ arguments ++ [body]) :
      (Γ, d) ∈ (Node.yield parameters locals arguments body).partsIn Γ :=
    List.mem_map_of_mem (List.mem_append_left _ member)
  have types {d : Expr} (member : d ∈ arguments) :=
    (checked.part (operand (List.mem_append_left [body] member))).proper
  have ⟨⟨binds, same⟩, _, apart, _, _⟩ := checked
  refine delivers_bind lasting_true (delivers_operands inner proper checked lasting_true
    fun d member => ⟨List.mem_append_left _ member, operand (List.mem_append_left _ member)⟩)
    fun vs => ?_
  refine delivers_enter Γ (fun m => ?_) (fun classes w starts now => ?_) (fun _ _ _ => id)
    ((delivers_operand inner proper checked (d := body) (by simp [Node.operands])
      (operand (by simp))).imp (fun _ => id) (fun _ _ => id)
        fun _ _ ⟨t, typed, fits⟩ => ⟨t, same.trans typed, fits⟩)
  · exact Machine.slots_only (Machine.clearSlots_eq _) (Machine.bindOrClear_eq _ _)
  · refine starts.typed.framed.enterBlock apart fun b member t typed => ?_
    obtain ⟨u, typed', fits⟩ := bound_fits now.2 proper (fun e member => types member) binds.stores
      b member
    cases typed.symm.trans typed'
    exact fits

theorem dispatch_steps (checked : Expr.Safe σ Γ ⟨ty, .dispatch scrutinees temps arms⟩) :
    Expr.Steps σ Γ p fuel ⟨ty, .dispatch scrutinees temps arms⟩ := by
  have operand {d : Expr} (member : d ∈ scrutinees) :
      (Γ, d) ∈ (Node.dispatch scrutinees temps arms).partsIn Γ :=
    List.mem_append_left _ (List.mem_map_of_mem member)
  have ⟨⟨lengths, ⟨ts, typed, chosen⟩, above, _⟩, _, apart, _, _⟩ := checked
  refine delivers_bind lasting_true (delivers_operands inner proper checked lasting_true
    fun d member => ⟨List.mem_append_left _ member, operand member⟩) fun vs => ?_
  cases found : arms.find? (Arm.fits vs) with
  | none =>
    refine delivers_enter Γ (fun m => Machine.bindSlots_eq _ _) (fun classes w starts now => ?_)
      (fun _ _ _ => id) (delivers_fault fun classes w starts now => ?_)
    · exact starts.typed.framed.bindTemps apart
    · obtain ⟨arm, fits⟩ := find?_fits chosen ((now.2.fits typed).imp fun _ _ fits => fits.isOf)
      rw [found] at fits
      cases fits
  | some arm =>
    have member := List.mem_of_find?_eq_some found
    have entered := checked.part (q := (Γ.bind (temps.zip arm.types), arm.body))
      (List.mem_append_right _ (List.mem_map.2 ⟨arm, member, rfl⟩))
    refine delivers_enter (Γ.bind (temps.zip arm.types)) (fun m => Machine.bindSlots_eq _ _)
      (fun classes w starts now => ?_) (fun _ _ _ framed => framed.unbind)
      ((inner (Γ.bind (temps.zip arm.types)) _ proper entered).imp (fun _ _ => trivial)
        (fun _ _ leaves => ?_) fun _ _ gives => gives.le entered.proper checked.proper (above arm member))
    · have all := now.2.fits typed
      have sizes : ts.length = scrutinees.length := by
        rw [← List.length_map (f := some), ← typed, List.length_map]
      have there : arm.types ∈ choices (ts.map Ty.members) := by
        rw [← chosen]
        exact List.mem_map_of_mem member
      have same : vs.length = arm.types.length := by
        rw [all.length_eq, choices_length _ _ there, List.length_map]
      have fits := List.find?_some found
      have members := Arm.members_of_fits same (now.2.ordinary starts.typed.stored.ordinary) fits
      refine starts.typed.framed.enterArm apart ?_ ?_
      · exact Nat.le_of_eq (lengths.trans (sizes.symm.trans all.length_eq.symm))
      · exact Value.Fits.retype_all all members
    · exact .operand (List.mem_append_right _ (List.mem_map_of_mem member)) leaves

end Scopes

end Evaluation

section Runs

variable {σ : Signatures} {p : Program} (safe : p.Safe σ)

include safe

/-- The evaluation of an expression is faithful. -/
theorem watch_delivers (fuel : Nat) (Γ : Context) (e : Expr) (proper : Γ.Proper)
    (checked : e.Safe σ Γ) :
    Delivers σ Γ e.Leaves (fun _ => True) (p.watch fuel e) e.Gives := by
  induction fuel generalizing Γ e with
  | zero => exact delivers_outOfFuel
  | succ fuel ih =>
    have noted (steps : Expr.Steps σ Γ p fuel e) :
        Delivers σ Γ e.Leaves (fun _ => True) (p.watch (fuel + 1) e) e.Gives :=
      delivers_bind lasting_true steps fun v => delivers_note fun _ now => now.2
    rcases e with ⟨ty, node⟩
    cases node with
    | slot s => exact delivers_slot checked
    | instanceVar s name => exact delivers_instanceVar checked
    | global name => exact delivers_global checked
    | constant name => exact delivers_constant checked
    | literal l =>
      obtain ⟨rule, -, -, -, -⟩ := checked
      refine noted (delivers_pure fun classes _ => ⟨_, rule, .plain ?_ ?_⟩)
      · cases l <;> rfl
      · cases l <;> rintro _ ⟨⟩
    | classRef name =>
      obtain ⟨rule, -, -, -, -⟩ := checked
      refine noted (delivers_pure fun classes _ => ⟨_, rule, .plain ?_ (by rintro _ ⟨⟩)⟩)
      simp [Ty.classOf, Value.isOf, Ty.members, Value.isOfMember]
    | mainObject =>
      obtain ⟨rule, -, -, -, -⟩ := checked
      exact noted (delivers_pure fun classes _ => ⟨_, rule, .plain rfl (by rintro _ ⟨⟩)⟩)
    | assign s value => exact noted (assign_steps ih proper checked)
    | assignInstanceVar s name value =>
      exact noted (assignInstanceVar_steps ih proper safe.signatures checked)
    | assignGlobal name value => exact noted (assignGlobal_steps ih proper safe.signatures checked)
    | assignConstant name value => exact noted (assignConstant_steps ih proper safe.signatures checked)
    | sequence parts => exact noted (sequence_steps ih proper checked)
    | conditional condition left right => exact noted (conditional_steps ih proper checked)
    | «while» id condition body => exact noted (while_steps ih proper checked)
    | and left right => exact noted (and_steps ih proper checked)
    | or left right => exact noted (or_steps ih proper checked)
    | not operand => exact noted (not_steps ih proper checked)
    | call callee receiver arguments => exact noted (call_steps ih proper safe checked)
    | primitive operation receiver arguments => exact noted (primitive_steps ih proper checked)
    | construct c initializer arguments => exact noted (construct_steps ih proper safe checked)
    | foreign lib name arguments => exact noted (foreign_steps ih proper checked)
    | inline call => exact noted (inline_steps ih proper checked)
    | yield parameters locals arguments body => exact noted (yield_steps ih proper checked)
    | dispatch scrutinees temps arms => exact noted (dispatch_steps ih proper checked)
    | «return» frame value => exact noted (return_steps ih proper checked)
    | «break» target value => exact noted (break_steps ih proper checked)

/-- A run from the start is faithful up to the first slip, and if there is none, it ends with a value of
the type of the program or with a fault that types do not rule out. -/
theorem watchFrom_faithful (self : p.main.selfType = Ty.main) (plain : p.main.parameters = [])
    (fuel : Nat) {answer : Answer} {w : Watch}
    (run : p.watchFrom fuel Machine.empty = (answer, w)) :
    FaithfulLog w.events ∧ (Unslipped w.events →
      match answer with
      | .value v => ∃ t, p.main.returnType = some t ∧ v.isOf t
      | .fault f => f.Legal
      | .outOfFuel => True) := by
  have start : Starts σ ⟨[], []⟩ [] ⟨Machine.empty, [], []⟩ := {
    faithful := trivial
    unslipped := List.forall_mem_nil _
    typed := {
      stored := ⟨List.forall_mem_nil _, rfl, by rintro _ _ _ _ ⟨⟩, by rintro _ _ ⟨⟩,
        by rintro _ _ ⟨⟩⟩
      framed := ⟨fun _ _ => rfl, by rintro _ _ ⟨⟩, List.forall_mem_nil _⟩ } }
  have delivers : Delivers σ ⟨[], []⟩ (fun _ _ => True) (fun _ => True)
      (p.main.watch (p.watch fuel) .main []) _ :=
    delivers_method safe (watch_delivers safe fuel) List.mem_cons_self
      (fun _ _ => .plain (self ▸ rfl) (by rintro _ ⟨⟩)) fun _ _ b member => by
        rw [plain] at member
        cases member
  have ⟨faithful, after⟩ := delivers.runs [] _ start trivial
  rw [Program.watchFrom] at run
  cases ran : p.main.watch (p.watch fuel) .main [] ⟨Machine.empty, [], []⟩ with
  | ok v w' =>
    rw [ran] at run faithful after
    cases run
    refine ⟨faithful, fun unslipped => ?_⟩
    obtain ⟨_, -, -, t, typed, fits⟩ := after unslipped
    exact ⟨t, typed, fits.isOf⟩
  | error stop w' =>
    rw [ran] at run faithful after
    rcases stop with (⟨frame, v⟩ | ⟨target, v⟩) | f | _ <;> cases run
    · exact ⟨faithful, fun _ => trivial⟩
    · exact ⟨faithful, fun _ => trivial⟩
    · refine ⟨faithful, fun unslipped => ?_⟩
      obtain ⟨_, -, -, legal⟩ := after unslipped
      exact legal
    · exact ⟨faithful, fun _ => trivial⟩

end Runs

end Typed

end TypedBlocks

import TypedBlocks.Inference.Fixpoint

/-!
# Steps of a pass

Every elaboration is a sequence of small steps on the state of the pass. The primitive steps always
succeed, and their equations say what they leave behind; a sequence succeeds exactly when its steps
do, one after another.
-/
namespace TypedBlocks.Inference

open Typed (InstanceId SlotId Slot)

/-- What stands in for an expression after an error. -/
def Elaborated.failed : Elaborated := ⟨⟨none, .sequence []⟩, Completions.never⟩

namespace Pass

variable {α β : Type} {s s' : PassState}

theorem bind_eq_some {x : Pass α} {f : α → Pass β} {r : β × PassState} :
    (x >>= f) s = some r ↔ ∃ a s', x s = some (a, s') ∧ f a s' = some r := by
  change (x s).bind (fun p => f p.1 p.2) = some r ↔ _
  rw [Option.bind_eq_some_iff]
  constructor
  · rintro ⟨⟨a, s'⟩, first, second⟩
    exact ⟨a, s', first, second⟩
  · rintro ⟨a, s', first, second⟩
    exact ⟨(a, s'), first, second⟩

theorem pure_eq_some {a b : α} : (pure a : Pass α) s = some (b, s') ↔ a = b ∧ s = s' := by
  change some (a, s) = some (b, s') ↔ _
  simp only [Option.some.injEq, Prod.mk.injEq]

/-- A step that is known to succeed can be taken. -/
theorem bind_run {x : Pass α} {f : α → Pass β} {a : α} (h : x s = some (a, s')) :
    (x >>= f) s = f a s' := by
  change (x s).bind (fun p => f p.1 p.2) = _
  rw [h]
  rfl

theorem get_run : (get : Pass PassState) s = some (s, s) := rfl

theorem set_run (t : PassState) : (set t : Pass PUnit) s = some (⟨⟩, t) := rfl

theorem modify_run (f : PassState → PassState) : (modify f : Pass PUnit) s = some (⟨⟩, f s) := rfl

theorem fail_run (e : StaticError) :
    fail e s = some (Elaborated.failed, { s with errors := s.errors ++ [e] }) := rfl

theorem newFrame_run : newFrame s = some (⟨s.nextFrame⟩, { s with nextFrame := s.nextFrame + 1 }) :=
  rfl

theorem newSite_run : newSite s = some (⟨s.nextSite⟩, { s with nextSite := s.nextSite + 1 }) := rfl

theorem newLoop_run : newLoop s = some (⟨s.nextLoop⟩, { s with nextLoop := s.nextLoop + 1 }) := rfl

theorem tables_run : tables s = some (s.tables, s) := rfl

theorem slotFor_run (key : ScopeVar) :
    slotFor key s = some ((s.frame.slotFor key).1, { s with frame := (s.frame.slotFor key).2 }) :=
  rfl

theorem tempSlot_run (t : Ty) :
    tempSlot t s = some ((s.frame.tempSlot t).1, { s with frame := (s.frame.tempSlot t).2 }) := rfl

theorem slotsWithin_run (outer : ScopeChain) :
    slotsWithin outer s = some (s.frame.slotsWithin outer, s) := rfl

theorem assigned_run : assigned s = some (s.assigned, s) := rfl

theorem isAssigned_run (key : ScopeVar) :
    isAssigned key s = some (s.assigned.any (· == key), s) := rfl

theorem setAssigned_run (keys : List ScopeVar) :
    setAssigned keys s = some (⟨⟩, { s with assigned := keys }) := rfl

theorem unassign_run (outer : ScopeChain) :
    unassign outer s =
      some (⟨⟩, { s with assigned := s.assigned.filter fun k => !isWithin k.path outer }) := rfl

/-- The frame with a slot for `self`, and that slot. -/
def selfBound (f : FrameSlots) (path : ScopeChain) (t : Ty) : SlotId × FrameSlots :=
  let bound := f.slotFor ⟨path, "self"⟩
  (bound.1, bound.2.update bound.1 fun slot => { slot with ty := some t })

theorem bindSelf_run (path : ScopeChain) (t : Ty) :
    bindSelf path t s =
      some ((selfBound s.frame path t).1, { s with frame := (selfBound s.frame path t).2 }) := rfl

/-- The assigned variables with one more among them. -/
def marked (assigned : List ScopeVar) (key : ScopeVar) : List ScopeVar :=
  if assigned.any (· == key) then assigned else key :: assigned

theorem bindVar_run (path : ScopeChain) (name : String) (t : Ty) :
    bindVar path name t s =
      some ((s.frame.slotFor ⟨path, name⟩).1,
        { s with
          tables := s.tables.extendVar ⟨path, name⟩ t
          assigned := marked s.assigned ⟨path, name⟩
          frame := (s.frame.slotFor ⟨path, name⟩).2 }) := rfl

/-- The frame after a variable has been looked up, its slot marked if a block captures it. -/
def lookedUp (f : FrameSlots) (key : ScopeVar) (captured : Bool) : FrameSlots :=
  if captured then
    (f.slotFor key).2.update (f.slotFor key).1 fun slot => { slot with captured := true }
  else (f.slotFor key).2

theorem localVar_run (captures : CaptureTable) (a : BodyContext) (name : String) :
    localVar captures a name s =
      let scope := a.scopeOf captures name
      some (((s.frame.slotFor ⟨scope.1, name⟩).1, ⟨scope.1, name⟩),
        { s with frame := lookedUp s.frame ⟨scope.1, name⟩ scope.2 }) := by
  simp only [localVar, lookedUp]
  cases (a.scopeOf captures name).2 <;> rfl

end Pass

end TypedBlocks.Inference

import TypedBlocks.Proofs.LiveCode
import TypedBlocks.Proofs.WatchedRuns

/-!
# Definite assignment

From the slots that are assigned before an expression follow slots that are assigned after it, by
rules for each node. A slot is read where it is assigned, or with a type that has nil. Entering a
scope empties its slots, so a loop or an early exit keeps only what no scope inside empties. Runs of
a program that obeys the rules read nil from a slot only with a type that has nil.
-/
namespace TypedBlocks

open Typed (SlotId)

/-- The parameters that get a value, one after the other. -/
theorem boundSlots_length {β γ : Type} (slots : List SlotId) {vs : List β} {ws : List γ}
    (same : vs.length = ws.length) : boundSlots slots vs = boundSlots slots ws := by
  induction slots generalizing vs ws with
  | nil => rfl
  | cons s slots ih =>
    cases vs with
    | nil =>
      cases ws with
      | nil => rfl
      | cons w ws => cases same
    | cons v vs =>
      cases ws with
      | nil => cases same
      | cons w ws =>
        have rest := ih (Nat.succ.inj same)
        simp only [boundSlots, List.zip_cons_cons, List.map_cons] at rest ⊢
        rw [rest]

theorem boundSlots_all {β : Type} {slots : List SlotId} {vs : List β}
    (enough : slots.length ≤ vs.length) : boundSlots slots vs = slots :=
  List.map_fst_zip enough

theorem mem_withoutSlots {emptied slots : List SlotId} {s : SlotId} :
    s ∈ withoutSlots emptied slots ↔ s ∈ slots ∧ s ∉ emptied := by
  simp [withoutSlots]

namespace Machine

variable (m : Machine) (s x : SlotId) (v : Value)

theorem slot_setSlot : (m.setSlot s v).slot x = if x = s then v else m.slot x := by
  rcases s with ⟨i⟩
  rcases x with ⟨j⟩
  simp only [setSlot, slot, setAt, Array.getD_eq_getD_getElem?, SlotId.mk.injEq]
  split
  · rename_i inside
    rw [Array.getElem?_setIfInBounds]
    by_cases same : j = i
    · subst same
      simp [inside]
    · rw [if_neg (Ne.symm same), if_neg same]
  · rename_i outside
    rw [Array.getElem?_push]
    simp only [Array.size_append, Array.size_replicate]
    by_cases same : j = i
    · subst same
      rw [if_pos (by omega), if_pos rfl]
      rfl
    · rw [if_neg same, if_neg (by omega), Array.getElem?_append]
      split
      · rfl
      · rw [Array.getElem?_replicate]
        split <;> simp_all

theorem slot_clearSlots (ss : List SlotId) :
    (m.clearSlots ss).slot x = if x ∈ ss then .nil else m.slot x := by
  induction ss generalizing m with
  | nil => simp [clearSlots]
  | cons s ss ih =>
    have rest := ih (m.setSlot s .nil)
    rw [clearSlots] at rest
    rw [clearSlots, List.foldl_cons, rest, slot_setSlot]
    by_cases here : x = s <;> by_cases later : x ∈ ss <;> simp [here, later]

theorem slot_bindSlots {x : SlotId} {ss : List SlotId} {vs : List Value}
    (free : x ∉ boundSlots ss vs) : (m.bindSlots ss vs).slot x = m.slot x := by
  induction ss generalizing m vs with
  | nil => cases vs <;> rfl
  | cons s ss ih =>
    cases vs with
    | nil => rfl
    | cons v vs =>
      simp only [boundSlots, List.zip_cons_cons, List.map_cons, List.mem_cons, not_or] at free
      rw [bindSlots, ih _ free.2, slot_setSlot, if_neg free.1]

theorem slot_bindOrClear {x : SlotId} (ss : List SlotId) (vs : List Value) :
    (x ∈ ss.drop vs.length → (m.bindOrClear ss vs).slot x = .nil) ∧
      (x ∉ ss.drop vs.length → x ∉ boundSlots ss vs → (m.bindOrClear ss vs).slot x = m.slot x) := by
  induction ss generalizing m vs with
  | nil => simp [bindOrClear]
  | cons s ss ih =>
    cases vs with
    | nil =>
      obtain ⟨emptied, kept⟩ := ih (m.setSlot s .nil) []
      simp only [List.length_nil, List.drop_zero, boundSlots, List.zip_nil_right, List.map_nil,
        List.not_mem_nil, not_false_eq_true, forall_const, slot_setSlot] at emptied kept ⊢
      rw [bindOrClear]
      by_cases later : x ∈ ss
      · simp [later, emptied later]
      · simp only [List.mem_cons, later, or_false, kept later]
        exact ⟨fun here => if_pos here, fun other => if_neg other⟩
    | cons v vs =>
      obtain ⟨emptied, kept⟩ := ih (m.setSlot s v) vs
      rw [bindOrClear]
      refine ⟨emptied, fun free other => ?_⟩
      simp only [boundSlots, List.zip_cons_cons, List.map_cons, List.mem_cons, not_or] at other
      rw [kept free other.2, slot_setSlot, if_neg other.1]

theorem setInstanceVar_slots (object : Value) (name : String) :
    (m.setInstanceVar object name v).slots = m.slots := by
  cases object <;> rfl

end Machine

namespace Typed

abbrev SlotSet := SlotId → Prop

/-- The slots that the scope entered at the node is emptied of. -/
def Node.emptied : Node → List SlotId
  | .inline c => c.locals
  | .yield parameters locals arguments _ => locals ++ parameters.drop arguments.length
  | _ => []

/-- A scope in the expression empties the slot. -/
def Expr.Empties (e : Expr) (s : SlotId) : Prop := ∃ d, Inside d e ∧ s ∈ d.node.emptied

/-- The parts of a node that evaluates them in order and touches no slot itself. -/
def Node.ordered? : Node → Option (List Expr)
  | .literal _ | .instanceVar _ _ | .global _ | .constant _ | .classRef _ | .mainObject => some []
  | .assignInstanceVar _ _ value | .assignGlobal _ value | .assignConstant _ value | .not value
  | .return _ value | .break _ value => some [value]
  | .sequence parts => some parts
  | .call _ receiver arguments | .primitive _ receiver arguments => some (receiver :: arguments)
  | .construct _ _ arguments | .foreign _ _ arguments => some arguments
  | _ => none

mutual

/-- If the slots of the first set are assigned before the expression, those of the second one are
after it, and no slot is read unassigned but with a type that has nil. -/
inductive Expr.Definite : SlotSet → Expr → SlotSet → Prop
  | slot {A A' : SlotSet} {ty : Option Ty} {s : SlotId}
    (read : A s ∨ ∃ t, ty = some t ∧ Ty.nil ≤ t) (after : ∀ x, A' x → A x) :
    Expr.Definite A ⟨ty, .slot s⟩ A'
  | ordered {A A' : SlotSet} {ty : Option Ty} {node : Node} {es : List Expr}
    (parts : node.ordered? = some es) (definite : DefiniteInOrder A es A') :
    Expr.Definite A ⟨ty, node⟩ A'
  | assign {A A₁ A' : SlotSet} {ty : Option Ty} {s : SlotId} {value : Expr}
    (assigned : Expr.Definite A value A₁) (after : ∀ x, A' x → x = s ∨ A₁ x) :
    Expr.Definite A ⟨ty, .assign s value⟩ A'
  | conditional {A A₁ A₂ A₃ A' : SlotSet} {ty : Option Ty}
    {condition consequent alternative : Expr} (test : Expr.Definite A condition A₁)
    (yes : Expr.Definite A₁ consequent A₂) (no : Expr.Definite A₁ alternative A₃)
    (first : consequent.ty.isSome → ∀ x, A' x → A₂ x)
    (second : alternative.ty.isSome → ∀ x, A' x → A₃ x) :
    Expr.Definite A ⟨ty, .conditional condition consequent alternative⟩ A'
  /-- The condition holds with what is assigned in every round. -/
  | while {A A₁ A₂ A' : SlotSet} {ty : Option Ty} {id : LoopId} {condition body : Expr}
    (test : Expr.Definite A condition A₁) (round : Expr.Definite A₁ body A₂)
    (kept : ∀ x, A x → ¬ condition.Empties x ∧ ¬ body.Empties x)
    (after : ∀ x, A' x → A₁ x ∧ ¬ body.Empties x) :
    Expr.Definite A ⟨ty, .while id condition body⟩ A'
  | and {A A₁ A₂ A' : SlotSet} {ty : Option Ty} {left right : Expr} (first : Expr.Definite A left A₁)
    (second : Expr.Definite A₁ right A₂) (after : ∀ x, A' x → A₁ x ∧ ¬ right.Empties x) :
    Expr.Definite A ⟨ty, .and left right⟩ A'
  | or {A A₁ A₂ A' : SlotSet} {ty : Option Ty} {left right : Expr} (first : Expr.Definite A left A₁)
    (second : Expr.Definite A₁ right A₂) (after : ∀ x, A' x → A₁ x ∧ ¬ right.Empties x) :
    Expr.Definite A ⟨ty, .or left right⟩ A'
  /-- Where the body can be left early, only what was assigned before counts. -/
  | inline {A A₁ A₂ A' : SlotSet} {ty : Option Ty} {c : ExpandedCall}
    (operands : DefiniteInOrder A (c.receiver :: c.arguments) A₁)
    (fresh : ∀ x, A₁ x → x ∉ c.locals)
    (inner : Expr.Definite (fun x => x = c.selfSlot ∨ x ∈ boundSlots c.parameters c.arguments ∨ A₁ x)
      c.body A₂)
    (early : c.returnType.isSome ∨ c.breakType.isSome → ∀ x, A' x → A₁ x ∧ ¬ c.body.Empties x)
    (after : c.body.ty.isSome → ∀ x, A' x → A₂ x) : Expr.Definite A ⟨ty, .inline c⟩ A'
  | yield {A A₁ A₂ A' : SlotSet} {ty : Option Ty} {parameters locals : List SlotId}
    {arguments : List Expr} {body : Expr} (operands : DefiniteInOrder A arguments A₁)
    (fresh : ∀ x, A₁ x → x ∉ locals ++ parameters.drop arguments.length)
    (inner : Expr.Definite (fun x => (x ∈ boundSlots parameters arguments ∧
      x ∉ parameters.drop arguments.length) ∨ A₁ x) body A₂)
    (after : ∀ x, A' x → A₂ x) : Expr.Definite A ⟨ty, .yield parameters locals arguments body⟩ A'
  | dispatch {A A₁ A' : SlotSet} {ty : Option Ty} {scrutinees : List Expr} {temps : List SlotId}
    {arms : List Arm} {ends : Arm → SlotSet} (operands : DefiniteInOrder A scrutinees A₁)
    (bodies : ∀ arm ∈ arms,
      Expr.Definite (fun x => x ∈ boundSlots temps scrutinees ∨ A₁ x) arm.body (ends arm))
    (after : ∀ arm ∈ arms, arm.body.ty.isSome → ∀ x, A' x → ends arm x) :
    Expr.Definite A ⟨ty, .dispatch scrutinees temps arms⟩ A'

/-- The same for expressions evaluated one after the other. -/
inductive DefiniteInOrder : SlotSet → List Expr → SlotSet → Prop
  | nil {A A' : SlotSet} (after : ∀ x, A' x → A x) : DefiniteInOrder A [] A'
  | cons {A A₁ A' : SlotSet} {e : Expr} {es : List Expr} (first : Expr.Definite A e A₁)
    (rest : DefiniteInOrder A₁ es A') : DefiniteInOrder A (e :: es) A'

end

section Rules

variable {A A' A'' : SlotSet} {e : Expr} {es : List Expr}

/-- What empties a slot is the node or a part of it. -/
theorem Expr.Empties.cases {s : SlotId} (empties : e.Empties s) :
    s ∈ e.node.emptied ∨ ∃ d ∈ e.node.parts, d.Empties s := by
  obtain ⟨f, inside, emptied⟩ := empties
  cases inside with
  | self => exact .inl emptied
  | part direct inside => exact .inr ⟨_, direct, f, inside, emptied⟩

theorem Node.ordered_parts {n : Node} (ordered : n.ordered? = some es) :
    n.parts = es ∧ n.emptied = [] := by
  cases n <;> cases ordered <;> simp [Node.parts, Node.operands, Node.landing?, Node.emptied]

theorem DefiniteInOrder.weaken (definite : DefiniteInOrder A es A') (fewer : ∀ x, A'' x → A' x) :
    DefiniteInOrder A es A'' := by
  induction es generalizing A with
  | nil =>
    cases definite with
    | nil after => exact .nil fun x inside => after x (fewer x inside)
  | cons e es ih =>
    cases definite with
    | cons first rest => exact .cons first (ih rest)

/-- Less is assigned after an expression than could be said. -/
theorem Expr.Definite.weaken (definite : e.Definite A A') (fewer : ∀ x, A'' x → A' x) :
    e.Definite A A'' := by
  cases definite with
  | slot read after => exact .slot read fun x inside => after x (fewer x inside)
  | ordered parts definite => exact .ordered parts (definite.weaken fewer)
  | assign assigned after => exact .assign assigned fun x inside => after x (fewer x inside)
  | conditional test yes no first second =>
    exact .conditional test yes no (fun some x inside => first some x (fewer x inside))
      fun some x inside => second some x (fewer x inside)
  | «while» test round kept after =>
    exact .while test round kept fun x inside => after x (fewer x inside)
  | and first second after => exact .and first second fun x inside => after x (fewer x inside)
  | or first second after => exact .or first second fun x inside => after x (fewer x inside)
  | inline operands fresh inner early after =>
    exact .inline operands fresh inner (fun leaves x inside => early leaves x (fewer x inside))
      fun some x inside => after some x (fewer x inside)
  | yield operands fresh inner after =>
    exact .yield operands fresh inner fun x inside => after x (fewer x inside)
  | dispatch operands bodies after =>
    exact .dispatch operands bodies fun arm member some x inside =>
      after arm member some x (fewer x inside)

/-- An expression alone. -/
theorem DefiniteInOrder.single (definite : DefiniteInOrder A [e] A') : e.Definite A A' := by
  cases definite with
  | cons first rest =>
    cases rest with
    | nil after => exact first.weaken after

end Rules

/-- A method starts with `self` and its parameters. -/
def Method.Definite (m : Method) : Prop :=
  ∃ A', m.body.Definite (fun x => x = m.selfSlot ∨ x ∈ m.parameters) A'

end Typed

end TypedBlocks

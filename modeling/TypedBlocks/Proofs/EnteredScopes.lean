import TypedBlocks.Proofs.DefiniteAssignment
import TypedBlocks.Proofs.TypedPrograms

/-!
# Scopes that code enters

Inside a method, code enters the method that is expanded at a call, and the block that a yield runs.
Code in a block stands in the body around the call that the block is given to, so while the block
runs, the scopes that are entered are not those that it can see. Evaluation changes no slot that
neither the code nor the scopes entered from it write.
-/
namespace TypedBlocks.Typed

/-- A scope that code enters inside a method. -/
inductive Entered where
  | call (c : ExpandedCall)
  | block (parameters locals : List SlotId) (body : Expr)

namespace Entered

def body : Entered → Expr
  | call c => c.body
  | block _ _ body => body

/-- The slots that the entry gives values. -/
def bound : Entered → List SlotId
  | call c => c.selfSlot :: c.parameters
  | block parameters _ _ => parameters

/-- The slots that the entry empties. -/
def locals : Entered → List SlotId
  | call c => c.locals
  | block _ locals _ => locals

/-- The slots that belong to the scope or to one that is nested in it. -/
def slots (x : Entered) : List SlotId := x.bound ++ x.locals

end Entered

/-- The slots of an expanded method: its `self`, its parameters, its variables and those of the blocks
written in it. -/
abbrev ExpandedCall.slots (c : ExpandedCall) : List SlotId := (Entered.call c).slots

/-- The scope that is entered at a node. -/
def Node.enters? : Node → Option Entered
  | .inline c => some (.call c)
  | .yield parameters locals _ body => some (.block parameters locals body)
  | _ => none

/-- The parts of a node that run in the scope where the node stands. -/
def Node.staying : Node → List Expr
  | .inline c => c.receiver :: c.arguments
  | .yield _ _ arguments _ => arguments
  | n => n.parts

/-- The slots that a node reads or writes for the scope where it stands. -/
def Node.names : Node → List SlotId
  | .slot s | .assign s _ | .instanceVar s _ | .assignInstanceVar s _ _ => [s]
  | .dispatch _ temps _ => temps
  | _ => []

/-- The slots that a node writes, those of a scope that it enters included. -/
def Node.writes (n : Node) : List SlotId :=
  match n with
  | .assign s _ => [s]
  | .dispatch _ temps _ => temps
  | n => n.enters?.elim [] Entered.slots

/-- The first expression is the second one or a part of it that runs in the same scope. -/
inductive Expr.Stays : Expr → Expr → Prop
  | self (e : Expr) : Stays e e
  | part {d e f : Expr} (direct : d ∈ f.node.staying) (stays : Stays e d) : Stays e f

/-- Code of the scope itself names the slot. -/
def Expr.Names (e : Expr) (s : SlotId) : Prop := ∃ d, Stays d e ∧ s ∈ d.node.names

/-- The slot is bound at the entry of the scope, or the code of the scope names it. -/
def Entered.Uses (x : Entered) (s : SlotId) : Prop := s ∈ x.bound ∨ x.body.Names s

def Method.Uses (m : Method) (s : SlotId) : Prop :=
  s ∈ m.selfSlot :: m.parameters ∨ m.body.Names s

/-- An expression of the method, with the scopes that have been entered where it runs, the innermost
first. -/
inductive Method.Encloses (m : Method) : List Entered → Expr → Prop
  | body : Encloses m [] m.body
  | part {scopes : List Entered} {d e : Expr} (around : Encloses m scopes e)
      (direct : d ∈ e.node.staying) : Encloses m scopes d
  | enter {scopes : List Entered} {e : Expr} {x : Entered} (around : Encloses m scopes e)
      (entered : e.node.enters? = some x) : Encloses m (x :: scopes) x.body

/-- The expanded methods that the code stands in, the innermost first. A block given to a call stands
in the body around the call. -/
def standsIn : List Entered → List ExpandedCall
  | [] => []
  | .call c :: scopes => c :: standsIn scopes
  | .block _ _ _ :: scopes => (standsIn scopes).tail

section Parts

variable {n : Node} {d e : Expr} {s : SlotId} {x : Entered}

theorem Node.mem_parts :
    d ∈ n.parts ↔ d ∈ n.staying ∨ ∃ x, n.enters? = some x ∧ d = x.body := by
  cases n with
  | inline c =>
    simp [parts, operands, landing?, staying, enters?, Entered.body, or_assoc]
  | yield parameters locals arguments body =>
    simp [parts, operands, landing?, staying, enters?, Entered.body]
  | _ => simp [staying, enters?]

/-- A node that enters a scope has no other use of slots. -/
theorem Node.entered (entered : n.enters? = some x) : n.names = [] ∧ n.writes = x.slots := by
  cases n with
  | inline c | yield parameters locals arguments body =>
    cases entered
    exact ⟨rfl, rfl⟩
  | _ => cases entered

/-- All code of a method runs inside some scopes. -/
theorem Method.inside_iff {m : Method} :
    e.Inside m.body ↔ ∃ scopes, m.Encloses scopes e := by
  constructor
  · suffices ∀ f, e.Inside f → ∀ scopes, m.Encloses scopes f → ∃ scopes, m.Encloses scopes e from
      fun inside => this _ inside [] .body
    intro f inside
    induction inside with
    | self => exact fun scopes around => ⟨scopes, around⟩
    | part direct _ ih =>
      intro scopes around
      rcases Node.mem_parts.1 direct with stays | ⟨x, entered, rfl⟩
      · exact ih scopes (.part around stays)
      · exact ih (x :: scopes) (.enter around entered)
  · rintro ⟨scopes, around⟩
    induction around with
    | body => exact .self _
    | part _ direct ih =>
      exact Expr.Inside.trans (.part (Node.mem_parts.2 (.inl direct)) (.self _)) ih
    | enter _ entered ih =>
      exact Expr.Inside.trans (.part (Node.mem_parts.2 (.inr ⟨_, entered, rfl⟩)) (.self _)) ih

theorem Method.Encloses.stays {m : Method} {scopes : List Entered} (around : m.Encloses scopes e)
    (stays : Expr.Stays d e) : m.Encloses scopes d := by
  induction stays with
  | self => exact around
  | part direct _ ih => exact ih (.part around direct)

end Parts

section Evaluation

variable {α β : Type} {s : SlotId} {x : Eval α}

/-- The evaluation leaves the slot as it is, however it ends. -/
structure Spares (s : SlotId) (x : Eval α) : Prop where
  returns : ∀ m a m', x m = .ok a m' → m'.slot s = m.slot s
  stops : ∀ m stop m', x m = .error stop m' → m'.slot s = m.slot s

theorem spares_pure (a : α) : Spares s (pure a : Eval α) where
  returns _ _ _ h := by
    cases h
    rfl
  stops _ _ _ h := by cases h

theorem spares_throw (stop : Stop) : Spares s (throw stop : Eval α) where
  returns _ _ _ h := by cases h
  stops _ _ _ h := by
    cases h
    rfl

theorem spares_get : Spares s (get : Eval Machine) where
  returns _ _ _ h := by
    cases h
    rfl
  stops _ _ _ h := by cases h

theorem spares_modify {f : Machine → Machine} (same : ∀ m, (f m).slot s = m.slot s) :
    Spares s (modify f : Eval PUnit) where
  returns m _ _ h := by
    cases h
    exact same m
  stops _ _ _ h := by cases h

theorem spares_modifyGet {f : Machine → α × Machine} (same : ∀ m, (f m).2.slot s = m.slot s) :
    Spares s (modifyGet f : Eval α) where
  returns m _ _ h := by
    cases h
    exact same m
  stops _ _ _ h := by cases h

theorem spares_ofExcept (result : Except Fault α) : Spares s (Eval.ofExcept result) := by
  cases result with
  | ok a => exact spares_pure a
  | error f => exact spares_throw _

theorem spares_bind {f : α → Eval β} (first : Spares s x) (next : ∀ a, Spares s (f a)) :
    Spares s (x >>= f) where
  returns m b m' h := by
    obtain ⟨a, m₁, ran, rest⟩ := bind_eq_ok.1 h
    exact ((next a).returns m₁ b m' rest).trans (first.returns m a m₁ ran)
  stops m stop m' h := by
    rcases bind_eq_error.1 h with stopped | ⟨a, m₁, ran, rest⟩
    · exact first.stops m stop m' stopped
    · exact ((next a).stops m₁ stop m' rest).trans (first.returns m a m₁ ran)

theorem spares_mapM {run : Expr → Eval Value} {es : List Expr}
    (each : ∀ e ∈ es, Spares s (run e)) : Spares s (es.mapM run) := by
  induction es with
  | nil => exact spares_pure _
  | cons e es ih =>
    rw [List.mapM_cons]
    exact spares_bind (each e List.mem_cons_self) fun v =>
      spares_bind (ih fun e member => each e (List.mem_cons_of_mem _ member)) fun vs =>
        spares_pure _

theorem spares_sequence {run : Expr → Eval Value} {es : List Expr}
    (each : ∀ e ∈ es, Spares s (run e)) (last : Value) : Spares s (evalSequence run last es) := by
  induction es generalizing last with
  | nil => exact spares_pure last
  | cons e es ih =>
    exact spares_bind (each e List.mem_cons_self) fun v =>
      ih (fun e member => each e (List.mem_cons_of_mem _ member)) v

theorem spares_landing {land : Exit → Option Value} {x : Eval Value} (inner : Spares s x) :
    Spares s (Eval.landing land x) where
  returns m v m' h := by
    cases Eval.landing_ends h with
    | value run => exact inner.returns m v m' run
    | lands left _ => exact inner.stops _ _ _ left
  stops m stop m' h := by
    cases Eval.landing_ends h with
    | passes left _ => exact inner.stops _ _ _ left
    | stops stopped _ => exact inner.stops m stop m' stopped

/-- A method that is called has slots of its own. -/
theorem spares_withSlots (slots : Array Value) (x : Eval α) :
    Spares s (Eval.withSlots slots x) where
  returns m a m' h := by
    obtain ⟨m₁, -, rfl⟩ := Eval.withSlots_eq_ok.1 h
    rfl
  stops m stop m' h := by
    obtain ⟨m₁, -, rfl⟩ := Eval.withSlots_eq_error.1 h
    rfl

theorem slot_enter_call {c : ExpandedCall} (m : Machine) (r : Value) (vs : List Value)
    (free : s ∉ c.slots) :
    (((m.clearSlots c.locals).setSlot c.selfSlot r).bindSlots c.parameters vs).slot s =
      m.slot s := by
  simp only [ExpandedCall.slots, Entered.slots, Entered.bound, Entered.locals, List.cons_append,
    List.mem_cons, List.mem_append, not_or] at free
  obtain ⟨self, parameters, locals⟩ := free
  have unbound : s ∉ boundSlots c.parameters vs := fun bound => by
    obtain ⟨b, member, rfl⟩ := List.mem_map.1 bound
    exact parameters (List.of_mem_zip member).1
  rw [Machine.slot_bindSlots _ unbound, Machine.slot_setSlot, if_neg self, Machine.slot_clearSlots,
    if_neg locals]

theorem slot_enter_block {parameters locals : List SlotId} {body : Expr} (m : Machine)
    (vs : List Value) (free : s ∉ (Entered.block parameters locals body).slots) :
    ((m.clearSlots locals).bindOrClear parameters vs).slot s = m.slot s := by
  simp only [Entered.slots, Entered.bound, Entered.locals, List.mem_append, not_or] at free
  obtain ⟨unbound, locals⟩ := free
  rw [(Machine.slot_bindOrClear _ parameters vs).2 (fun late => unbound (List.mem_of_mem_drop late))
    (fun bound => by
      obtain ⟨b, member, rfl⟩ := List.mem_map.1 bound
      exact unbound (List.of_mem_zip member).1), Machine.slot_clearSlots, if_neg locals]

variable {p : Program} {run : Expr → Eval Value} {e : Expr}

theorem spares_invoke (id : InstanceId) (receiver : Value) (arguments : List Value) :
    Spares s (do
      let m ← p.methodOrFault id
      m.invoke run receiver arguments) := by
  refine spares_bind ?_ fun m => spares_withSlots _ _
  rw [Program.methodOrFault]
  split
  · exact spares_pure _
  · exact spares_throw _

theorem spares_while {ty : Option Ty} {id : LoopId} {condition body : Expr}
    (first : Spares s (run condition)) (inner : Spares s (run body))
    (again : Spares s (run ⟨ty, .while id condition body⟩)) :
    Spares s (p.evalNode run ⟨ty, .while id condition body⟩) where
  returns m v m' h := by
    cases Program.while_ends h with
    | fails tested _ => exact first.returns _ _ _ tested
    | round tested _ ran goes =>
      exact ((again.returns _ _ _ goes).trans (inner.returns _ _ _ ran)).trans
        (first.returns _ _ _ tested)
    | breaks tested _ left => exact (inner.stops _ _ _ left).trans (first.returns _ _ _ tested)
  stops m stop m' h := by
    cases Program.while_ends h with
    | untested stopped => exact first.stops _ _ _ stopped
    | round tested _ ran goes =>
      exact ((again.stops _ _ _ goes).trans (inner.returns _ _ _ ran)).trans
        (first.returns _ _ _ tested)
    | stops tested _ stopped _ => exact (inner.stops _ _ _ stopped).trans (first.returns _ _ _ tested)

/-- A node spares what it does not write, if its parts and further rounds of a loop do. -/
theorem evalNode_spares (own : s ∉ e.node.writes) (parts : ∀ d ∈ e.node.parts, Spares s (run d))
    (again : Spares s (run e)) : Spares s (p.evalNode run e) := by
  rcases e with ⟨ty, node⟩
  cases node with
  | literal _ | classRef _ | mainObject => exact spares_pure _
  | slot _ | instanceVar _ _ | global _ | constant _ =>
    exact spares_bind spares_get fun m => spares_pure _
  | assign x value =>
    have other : s ≠ x := fun same => own (List.mem_singleton.2 same)
    exact spares_bind (parts value List.mem_cons_self) fun v =>
      spares_bind (spares_modify fun m => by rw [Machine.slot_setSlot, if_neg other])
        fun _ => spares_pure v
  | assignInstanceVar x name value =>
    exact spares_bind (parts value List.mem_cons_self) fun v =>
      spares_bind (spares_modify fun m => by
        rw [Machine.slot, Machine.setInstanceVar_slots]
        rfl) fun _ => spares_pure v
  | assignGlobal name value | assignConstant name value =>
    exact spares_bind (parts value List.mem_cons_self) fun v =>
      spares_bind (spares_modify fun _ => rfl) fun _ => spares_pure v
  | sequence es => exact spares_sequence (fun d member => parts d (by simpa [Node.parts,
      Node.operands, Node.landing?] using member)) .nil
  | conditional condition consequent alternative =>
    refine spares_bind (parts condition (by simp [Node.parts, Node.operands])) fun v => ?_
    split
    · exact parts consequent (by simp [Node.parts, Node.operands])
    · exact parts alternative (by simp [Node.parts, Node.operands])
  | «while» id condition body =>
    exact spares_while (parts condition (by simp [Node.parts, Node.operands]))
      (parts body (by simp [Node.parts, Node.landing?])) again
  | and left right =>
    refine spares_bind (parts left (by simp [Node.parts, Node.operands])) fun v => ?_
    split
    · exact parts right (by simp [Node.parts, Node.operands])
    · exact spares_pure v
  | or left right =>
    refine spares_bind (parts left (by simp [Node.parts, Node.operands])) fun v => ?_
    split
    · exact spares_pure v
    · exact parts right (by simp [Node.parts, Node.operands])
  | not operand =>
    exact spares_bind (parts operand List.mem_cons_self) fun v => spares_pure _
  | call id receiver arguments =>
    exact spares_bind (parts receiver (by simp [Node.parts, Node.operands])) fun r =>
      spares_bind (spares_mapM fun d member => parts d (by simp [Node.parts, Node.operands, member]))
        fun vs => spares_invoke id r vs
  | primitive operation receiver arguments =>
    exact spares_bind (parts receiver (by simp [Node.parts, Node.operands])) fun r =>
      spares_bind (spares_mapM fun d member => parts d (by simp [Node.parts, Node.operands, member]))
        fun vs => spares_ofExcept _
  | construct className initializer arguments =>
    refine spares_bind (spares_mapM fun d member => parts d (by
      simp [Node.parts, Node.operands, member])) fun vs =>
      spares_bind (spares_modifyGet fun _ => rfl) fun object => ?_
    cases initializer with
    | none => exact spares_pure object
    | some id =>
      have invoked : Spares s (do
          let m ← p.methodOrFault id
          m.invoke run object vs) := spares_invoke id object vs
      simpa only [bind_assoc] using spares_bind invoked fun _ => spares_pure object
  | foreign lib name arguments =>
    exact spares_bind (spares_mapM fun d member => parts d (by
      simp [Node.parts, Node.operands, member])) fun _ => spares_throw _
  | inline c =>
    exact spares_bind (parts c.receiver (by simp [Node.parts, Node.operands])) fun r =>
      spares_bind (spares_mapM fun d member => parts d (by
        simp [Node.parts, Node.operands, member])) fun vs =>
        spares_bind (spares_modify fun m => slot_enter_call m r vs own) fun _ =>
          spares_landing (parts c.body (by simp [Node.parts, Node.landing?]))
  | yield parameters locals arguments body =>
    exact spares_bind (spares_mapM fun d member => parts d (by
      simp [Node.parts, Node.operands, member])) fun vs =>
      spares_bind (spares_modify fun m => slot_enter_block m vs own) fun _ =>
        parts body (by simp [Node.parts, Node.operands])
  | dispatch scrutinees temps arms =>
    refine spares_bind (spares_mapM fun d member => parts d (by
      simp [Node.parts, Node.operands, member])) fun vs =>
      spares_bind (spares_modify fun m => Machine.slot_bindSlots m fun bound => ?_) fun _ => ?_
    · obtain ⟨b, member, rfl⟩ := List.mem_map.1 bound
      exact own (List.of_mem_zip member).1
    · split
      · rename_i arm found
        exact parts arm.body (by
          simpa [Node.parts, Node.operands, Node.landing?] using
            .inr ⟨arm, List.mem_of_find?_eq_some found, rfl⟩)
      · exact spares_throw _
  | «return» target value | «break» target value =>
    exact spares_bind (parts value List.mem_cons_self) fun v => spares_throw _

/-- Evaluation leaves a slot as it is that no part of the code writes. -/
theorem eval_spares (free : ∀ d : Expr, d.Inside e → s ∉ d.node.writes) (fuel : Nat) :
    Spares s (p.eval fuel e) := by
  induction fuel generalizing e with
  | zero => exact spares_throw .outOfFuel
  | succ fuel ih =>
    exact evalNode_spares (free e (.self e))
      (fun d part => ih fun f inside => free f (.part part inside)) (ih free)

end Evaluation

/-- The blocks that run in a method are isolated from the bodies that yield to them, and entering a
scope leaves those scopes alone that have been entered before. -/
structure Method.Isolates (p : Program) (m : Method) : Prop where
  /-- Every part of the body is considered. -/
  placed : ∀ e : Expr, e.Inside m.body → ∃ scopes, m.Encloses scopes e
  /-- A yield stands in an expanded method. The block shares no slot with it, and evaluating the block
  leaves its slots as they are. -/
  yields : ∀ scopes (e : Expr) parameters locals arguments body, m.Encloses scopes e →
    e.node = .yield parameters locals arguments body →
      ∃ c around, standsIn scopes = c :: around ∧ ∀ s ∈ c.slots,
        s ∉ parameters ++ locals ∧ ∀ fuel, Spares s (p.eval fuel body)
  /-- The slots that the entry of a scope empties or binds are used neither by the code of the method
  nor by that of a scope that is entered already. -/
  entries : ∀ scopes (e : Expr) x, m.Encloses scopes e → e.node.enters? = some x →
    ∀ s ∈ x.slots, ¬ m.Uses s ∧ ∀ y ∈ scopes, ¬ y.Uses s

end TypedBlocks.Typed

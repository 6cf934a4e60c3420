import TypedBlocks.Proofs.EvaluationSteps

/-!
# Watched runs

A watched run notes the value of every expression that gives one, with the machine it is given on and
the slots that have been assigned by then. A slot is assigned by an assignment, or when it is bound
at the entry of its scope; entering a scope takes back what has been assigned to the slots that it
empties. Watching changes nothing: without the notes a watched run is the plain one.
-/
namespace TypedBlocks

open Typed (InstanceId SlotId)

/-- An expression has given a value. -/
structure Event where
  expr : Typed.Expr
  value : Value
  machine : Machine
  /-- The slots of the running method assigned since the scope of each was last entered. -/
  assigned : List SlotId

/-- A machine that is watched. -/
structure Watch where
  machine : Machine
  assigned : List SlotId
  /-- What has been noted, the latest first. -/
  events : List Event

abbrev Watched := EStateM Stop Watch

namespace Watched

/-- A step that neither assigns slots nor takes back assignments. -/
def lift {α : Type} (x : Eval α) : Watched α := fun w =>
  match x w.machine with
  | .ok a m => .ok a { w with machine := m }
  | .error stop m => .error stop { w with machine := m }

/-- A change of slots, with the slots that are assigned after it. -/
def bind (change : Machine → Machine) (assigned : List SlotId → List SlotId) : Watched Unit :=
  modify fun w => { w with machine := change w.machine, assigned := assigned w.assigned }

def note (e : Typed.Expr) (v : Value) : Watched Unit :=
  modify fun w => { w with events := ⟨e, v, w.machine, w.assigned⟩ :: w.events }

/-- Turn the exits that `land` accepts into values. -/
def landing (land : Exit → Option Value) (x : Watched Value) : Watched Value := fun w =>
  match x w with
  | .error (.exit e) w' =>
    match land e with
    | some v => .ok v w'
    | none => .error (.exit e) w'
  | r => r

theorem landing_eq (land : Exit → Option Value) (x : Watched Value) :
    landing land x = landExits land x := by
  funext w
  rw [landing, landExits]
  rcases x w with _ | ⟨_ | _ | _, _⟩ <;> rfl

theorem landing_ends {land : Exit → Option Value} {x : Watched Value} {w : Watch}
    {r : EStateM.Result Stop Watch Value} (ends : landing land x w = r) : LandingEnds land x w r :=
  landExits_ends ((congrFun (landing_eq land x) w).symm.trans ends)

/-- Evaluate in a frame of one's own, and come back to the present one however it ends. -/
def inFrame {α : Type} (slots : Array Value) (assigned : List SlotId) (x : Watched α) :
    Watched α := fun w =>
  let back (w' : Watch) : Watch :=
    { w' with machine := { w'.machine with slots := w.machine.slots }, assigned := w.assigned }
  match x { w with machine := { w.machine with slots }, assigned } with
  | .ok a w' => .ok a (back w')
  | .error stop w' => .error stop (back w')

section Steps

variable {α : Type} {a : α} {stop : Stop} {w w' : Watch}

theorem lift_eq_ok {x : Eval α} : lift x w = .ok a w' ↔
    ∃ m, x w.machine = .ok a m ∧ w' = { w with machine := m } := by
  rw [lift]
  cases x w.machine <;> simp [and_assoc, eq_comm]

theorem lift_eq_error {x : Eval α} : lift x w = .error stop w' ↔
    ∃ m, x w.machine = .error stop m ∧ w' = { w with machine := m } := by
  rw [lift]
  cases x w.machine <;> simp [and_assoc, eq_comm]

variable {slots : Array Value} {assigned : List SlotId} {x : Watched α}

theorem inFrame_eq_ok : inFrame slots assigned x w = .ok a w' ↔
    ∃ w₁, x { w with machine := { w.machine with slots }, assigned } = .ok a w₁ ∧
      w' = { w₁ with
        machine := { w₁.machine with slots := w.machine.slots }, assigned := w.assigned } := by
  simp only [inFrame]
  cases x { w with machine := { w.machine with slots }, assigned } <;> simp [and_assoc, eq_comm]

theorem inFrame_eq_error : inFrame slots assigned x w = .error stop w' ↔
    ∃ w₁, x { w with machine := { w.machine with slots }, assigned } = .error stop w₁ ∧
      w' = { w₁ with
        machine := { w₁.machine with slots := w.machine.slots }, assigned := w.assigned } := by
  simp only [inFrame]
  cases x { w with machine := { w.machine with slots }, assigned } <;> simp [and_assoc, eq_comm]

end Steps

end Watched

/-- The slots that have a value to be bound to. -/
def boundSlots {β : Type} (slots : List SlotId) (values : List β) : List SlotId :=
  (slots.zip values).map (·.1)

/-- The slots left when some are emptied. -/
def withoutSlots (emptied slots : List SlotId) : List SlotId := slots.filter (! emptied.contains ·)

namespace Typed

/-- The slots that are assigned when a method starts. -/
def Method.entryAssigned (m : Method) (arguments : List Value) : List SlotId :=
  m.selfSlot :: boundSlots m.parameters arguments

/-- Run a method with a way to evaluate its body. -/
def Method.watch (m : Method) (run : Expr → Watched Value) (receiver : Value)
    (arguments : List Value) : Watched Value :=
  Watched.inFrame (m.entrySlots receiver arguments) (m.entryAssigned arguments)
    (Watched.landing (Exit.landInFrame m.frame) (run m.body))

/-- Evaluate one expression after another and keep the last value. -/
def watchSequence (run : Expr → Watched Value) : Value → List Expr → Watched Value
  | last, [] => pure last
  | _, e :: es => do
    let v ← run e
    watchSequence run v es

/-- Evaluate an expression as the plain evaluation does, and keep up what is assigned. -/
def Program.watchNode (p : Program) (run : Expr → Watched Value) (e : Expr) : Watched Value :=
  match e.node with
  | .literal l => pure l.toValue
  | .slot s => do return (← get).machine.slot s
  | .assign s value => do
    let v ← run value
    Watched.bind (·.setSlot s v) (s :: ·)
    return v
  | .instanceVar object name => do
    let m := (← get).machine
    return m.instanceVar (m.slot object) name
  | .assignInstanceVar object name value => do
    let v ← run value
    Watched.lift (modify fun m => m.setInstanceVar (m.slot object) name v)
    return v
  | .global name => do return (← get).machine.global name
  | .assignGlobal name value => do
    let v ← run value
    Watched.lift (modify (·.setGlobal name v))
    return v
  | .constant name => do return (← get).machine.constant name
  | .assignConstant name value => do
    let v ← run value
    Watched.lift (modify (·.setConstant name v))
    return v
  | .classRef name => pure (.classObject name)
  | .mainObject => pure .main
  | .sequence parts => watchSequence run .nil parts
  | .conditional condition consequent alternative => do
    if (← run condition).countsAsTrue then run consequent else run alternative
  | .while id condition body => fun w =>
    match run condition w with
    | .error stop w => .error stop w
    | .ok c w =>
      if c.countsAsTrue then
        match run body w with
        | .ok _ w => run e w
        | .error (.exit (.break (.loop l) v)) w =>
          if l == id then .ok v w else .error (.exit (.break (.loop l) v)) w
        | .error stop w => .error stop w
      else .ok .nil w
  | .and left right => do
    let v ← run left
    if v.countsAsTrue then run right else return v
  | .or left right => do
    let v ← run left
    if v.countsAsTrue then return v else run right
  | .not operand => do return .bool !(← run operand).countsAsTrue
  | .call method receiver arguments => do
    let r ← run receiver
    let vs ← arguments.mapM run
    let m ← Watched.lift (p.methodOrFault method)
    m.watch run r vs
  | .primitive operation receiver arguments => do
    let r ← run receiver
    let vs ← arguments.mapM run
    Watched.lift (Eval.ofExcept (operation.apply r vs))
  | .construct className initializer arguments => do
    let vs ← arguments.mapM run
    let object ← Watched.lift (modifyGet (·.allocate className))
    match initializer with
    | some id =>
      let m ← Watched.lift (p.methodOrFault id)
      let _ ← m.watch run object vs
      return object
    | none => return object
  | .foreign lib name arguments => do
    let _ ← arguments.mapM run
    Watched.lift (Eval.fault (.foreignCall lib name))
  | .inline call => do
    let r ← run call.receiver
    let vs ← call.arguments.mapM run
    Watched.bind
      (fun m => ((m.clearSlots call.locals).setSlot call.selfSlot r).bindSlots call.parameters vs)
      (call.selfSlot :: boundSlots call.parameters vs ++ withoutSlots call.locals ·)
    Watched.landing (Exit.landAtCall call.frame call.site) (run call.body)
  | .yield parameters locals arguments body => do
    let vs ← arguments.mapM run
    Watched.bind (fun m => (m.clearSlots locals).bindOrClear parameters vs) fun assigned =>
      withoutSlots (parameters.drop vs.length)
        (boundSlots parameters vs ++ withoutSlots locals assigned)
    run body
  | .dispatch scrutinees temps arms => do
    let vs ← scrutinees.mapM run
    Watched.bind (·.bindSlots temps vs) (boundSlots temps vs ++ ·)
    match arms.find? (Arm.fits vs) with
    | some arm => run arm.body
    | none => Watched.lift (Eval.fault (.noMatchingArm (vs.map Value.className)))
  | .return target value => do
    let v ← run value
    throw (.exit (.return target v))
  | .break target value => do
    let v ← run value
    throw (.exit (.break target v))

section Loops

variable {p : Program} {run : Expr → Watched Value} {ty : Option Ty} {id : LoopId}
  {condition body : Expr} {w : Watch} {r : EStateM.Result Stop Watch Value}

theorem Program.watchNode_while (p : Program) (run : Expr → Watched Value) (ty : Option Ty)
    (id : LoopId) (condition body : Expr) : p.watchNode run ⟨ty, .while id condition body⟩ =
      loopRound id (run condition) (run body) (run ⟨ty, .while id condition body⟩) := by
  funext w
  simp only [watchNode, loopRound]
  cases run condition w with
  | error stop w₁ => rfl
  | ok c w₁ =>
    dsimp only
    rcases run body w₁ with _ | ⟨(_ | ⟨_ | _, _⟩) | _ | _, _⟩ <;> rfl

theorem Program.watched_while_ends
    (ends : p.watchNode run ⟨ty, .while id condition body⟩ w = r) :
    LoopEnds id (run condition) (run body) (run ⟨ty, .while id condition body⟩) w r :=
  loopRound_ends ((congrFun (p.watchNode_while run ty id condition body) w).symm.trans ends)

end Loops

/-- Evaluate an expression of a program and note its value, and those of all that is evaluated for
it. -/
def Program.watch (p : Program) : Nat → Expr → Watched Value
  | 0, _ => throw .outOfFuel
  | fuel + 1, e => do
    let v ← p.watchNode (p.watch fuel) e
    Watched.note e v
    return v

/-- Run the top-level body as the plain run does, and keep what has been noted. -/
def Program.watchFrom (p : Program) (fuel : Nat) (m : Machine) : Answer × Watch :=
  match p.main.watch (p.watch fuel) .main [] ⟨m, [], []⟩ with
  | .ok v w => (.value v, w)
  | .error (.exit (.return _ _)) w => (.fault .escapedReturn, w)
  | .error (.exit (.break _ _)) w => (.fault .escapedBreak, w)
  | .error (.fault f) w => (.fault f, w)
  | .error .outOfFuel w => (.outOfFuel, w)

section Erasure

variable {α β : Type}

/-- A result without what has been noted. -/
def plainResult : EStateM.Result Stop Watch α → EStateM.Result Stop Machine α
  | .ok a w => .ok a w.machine
  | .error stop w => .error stop w.machine

/-- The watched evaluation does what the plain one does. -/
def Erases (x : Watched α) (y : Eval α) : Prop := ∀ w, plainResult (x w) = y w.machine

theorem erases_pure (a : α) : Erases (pure a) (pure a) := fun _ => rfl

theorem erases_throw (stop : Stop) : Erases (throw stop : Watched α) (throw stop) := fun _ => rfl

theorem erases_lift (x : Eval α) : Erases (Watched.lift x) x := by
  intro w
  rw [Watched.lift]
  cases x w.machine <;> rfl

theorem erases_change (change : Machine → Machine) (assigned : List SlotId → List SlotId) :
    Erases (Watched.bind change assigned) (modify change) := fun _ => rfl

theorem erases_bind {x : Watched α} {y : Eval α} {f : α → Watched β} {g : α → Eval β}
    (first : Erases x y) (rest : ∀ a, Erases (f a) (g a)) : Erases (x >>= f) (y >>= g) := by
  intro w
  have same := first w
  simp only [Bind.bind, EStateM.bind]
  cases run : x w with
  | ok a w' =>
    rw [run] at same
    rw [← same]
    exact rest a w'
  | error stop w' =>
    rw [run] at same
    rw [← same]
    rfl

theorem erases_landing {land : Exit → Option Value} {x : Watched Value} {y : Eval Value}
    (inner : Erases x y) : Erases (Watched.landing land x) (Eval.landing land y) := by
  intro w
  have same := inner w
  rw [Watched.landing, Eval.landing, ← same]
  cases x w with
  | ok v w' => rfl
  | error stop w' =>
    cases stop with
    | exit e =>
      simp only [plainResult]
      cases land e <;> rfl
    | fault f => rfl
    | outOfFuel => rfl

theorem erases_inFrame {slots : Array Value} {assigned : List SlotId} {x : Watched α} {y : Eval α}
    (inner : Erases x y) : Erases (Watched.inFrame slots assigned x) (Eval.withSlots slots y) := by
  intro w
  have same := inner { w with machine := { w.machine with slots }, assigned }
  simp only [Watched.inFrame, Eval.withSlots]
  rw [← same]
  cases x { w with machine := { w.machine with slots }, assigned } <;> rfl

theorem erases_loop {id : LoopId} {test body rest : Watched Value}
    {plainTest plainBody plainRest : Eval Value} (tests : Erases test plainTest)
    (bodies : Erases body plainBody) (rests : Erases rest plainRest) :
    Erases (loopRound id test body rest) (loopRound id plainTest plainBody plainRest) := by
  intro w
  rw [loopRound, loopRound, ← tests w]
  cases test w with
  | error stop w₁ => rfl
  | ok c w₁ =>
    cases holds : c.countsAsTrue with
    | false => simp [plainResult, holds]
    | true =>
      simp only [plainResult, holds, if_true]
      rw [← bodies w₁]
      cases body w₁ with
      | ok v w₂ => exact rests w₂
      | error stop w₂ =>
        rcases stop with (⟨frame, v⟩ | ⟨site | l, v⟩) | f | _ <;> simp only [plainResult]
        cases l == id <;> rfl

variable {run : Expr → Watched Value} {plain : Expr → Eval Value}
  (each : ∀ e, Erases (run e) (plain e))

include each

theorem erases_mapM (es : List Expr) : Erases (es.mapM run) (es.mapM plain) := by
  induction es with
  | nil => exact erases_pure _
  | cons e es ih =>
    rw [List.mapM_cons, List.mapM_cons]
    exact erases_bind (each e) fun _ => erases_bind ih fun _ => erases_pure _

theorem erases_sequence (last : Value) (es : List Expr) :
    Erases (watchSequence run last es) (evalSequence plain last es) := by
  induction es generalizing last with
  | nil => exact erases_pure _
  | cons e es ih => exact erases_bind (each e) fun v => ih v

theorem erases_method (m : Method) (receiver : Value) (arguments : List Value) :
    Erases (m.watch run receiver arguments) (m.invoke plain receiver arguments) :=
  erases_inFrame (erases_landing (each m.body))

theorem watchNode_erases (p : Program) (e : Expr) :
    Erases (p.watchNode run e) (p.evalNode plain e) := by
  rcases e with ⟨ty, node⟩
  cases node with
  | literal _ | classRef _ | mainObject => exact erases_pure _
  | slot _ | instanceVar _ _ | global _ | constant _ => exact fun w => rfl
  | assign s value =>
    exact erases_bind (each value) fun _ => erases_bind (erases_change _ _) fun _ => erases_pure _
  | assignInstanceVar _ _ value | assignGlobal _ value | assignConstant _ value =>
    exact erases_bind (each value) fun _ => erases_bind (erases_lift _) fun _ => erases_pure _
  | not operand => exact erases_bind (each operand) fun _ => erases_pure _
  | «return» target value => exact erases_bind (each value) fun _ => erases_throw _
  | «break» target value => exact erases_bind (each value) fun _ => erases_throw _
  | sequence parts => exact erases_sequence each _ parts
  | conditional condition consequent alternative =>
    refine erases_bind (each condition) fun v => ?_
    split
    · exact each consequent
    · exact each alternative
  | and left right =>
    refine erases_bind (each left) fun v => ?_
    split
    · exact each right
    · exact erases_pure _
  | or left right =>
    refine erases_bind (each left) fun v => ?_
    split
    · exact erases_pure _
    · exact each right
  | «while» id condition body =>
    rw [Program.watchNode_while, Program.evalNode_while]
    exact erases_loop (each condition) (each body) (each _)
  | call method receiver arguments =>
    exact erases_bind (each receiver) fun r => erases_bind (erases_mapM each arguments) fun vs =>
      erases_bind (erases_lift _) fun m => erases_method each m r vs
  | primitive operation receiver arguments =>
    exact erases_bind (each receiver) fun r => erases_bind (erases_mapM each arguments) fun vs =>
      erases_lift _
  | construct className initializer arguments =>
    refine erases_bind (erases_mapM each arguments) fun vs =>
      erases_bind (erases_lift _) fun object => ?_
    cases initializer with
    | none => exact erases_pure _
    | some id =>
      exact erases_bind (erases_lift _) fun m =>
        erases_bind (erases_method each m object vs) fun _ => erases_pure _
  | foreign lib name arguments =>
    exact erases_bind (erases_mapM each arguments) fun _ => erases_lift _
  | inline call =>
    exact erases_bind (each call.receiver) fun r =>
      erases_bind (erases_mapM each call.arguments) fun vs =>
        erases_bind (erases_change _ _) fun _ => erases_landing (each call.body)
  | yield parameters locals arguments body =>
    exact erases_bind (erases_mapM each arguments) fun vs =>
      erases_bind (erases_change _ _) fun _ => each body
  | dispatch scrutinees temps arms =>
    refine erases_bind (erases_mapM each scrutinees) fun vs =>
      erases_bind (erases_change _ _) fun _ => ?_
    cases arms.find? (Arm.fits vs) with
    | some arm => exact each arm.body
    | none => exact erases_lift _

end Erasure

/-- Watching an evaluation changes nothing. -/
theorem watch_erases (p : Program) (fuel : Nat) (e : Expr) :
    Erases (p.watch fuel e) (p.eval fuel e) := by
  induction fuel generalizing e with
  | zero => exact erases_throw _
  | succ fuel ih =>
    intro w
    have same := watchNode_erases ih p e w
    rw [Program.eval, ← same]
    simp only [Program.watch, Bind.bind, EStateM.bind]
    cases p.watchNode (p.watch fuel) e w <;> rfl

/-- Watching a run changes nothing. -/
theorem Program.watchFrom_plain (p : Program) (fuel : Nat) (m : Machine) :
    p.runFrom fuel m = ((p.watchFrom fuel m).1, (p.watchFrom fuel m).2.machine) := by
  have same := erases_method (watch_erases p fuel) p.main .main [] ⟨m, [], []⟩
  rw [Program.runFrom, Program.watchFrom, ← same]
  cases p.main.watch (p.watch fuel) .main [] ⟨m, [], []⟩ with
  | ok v w => rfl
  | error stop w =>
    cases stop with
    | exit e => cases e <;> rfl
    | fault f => rfl
    | outOfFuel => rfl

end Typed

end TypedBlocks

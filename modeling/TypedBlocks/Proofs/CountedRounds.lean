import TypedBlocks.Proofs.EnteredScopes
import TypedBlocks.Proofs.LongerRuns

/-!
# Counted rounds

A loop that counts runs a block and adds one to a counter, as long as the counter compares with a limit.
If the block leaves the slots of the counter and of the limit alone, it runs for consecutive integers,
and nothing but these runs decides what the machine is like in the end.
-/
namespace TypedBlocks

/-- The comparison with the limit holds for so many integers from the first one on, and not for the next
one. -/
def Primitive.Passes (order : Primitive) (limit : Int64) : Int64 → Nat → Prop
  | x, 0 => order.compareInts x limit = false
  | x, n + 1 => order.compareInts x limit = true ∧ order.Passes limit (x + 1) n

namespace Primitive

variable {limit x : Int64}

theorem toInt_succ (below : x < limit) : (x + 1).toInt = x.toInt + 1 := by
  have less := Int64.lt_iff_toInt_lt.1 below
  have most := limit.toInt_lt
  have least := x.le_toInt
  have one : (1 : Int64).toInt = 1 := by decide
  rw [Int64.toInt_add, one, Int.bmod_eq_of_le] <;> omega

theorem lt_passes (limit x : Int64) : lt.Passes limit x (limit.toInt - x.toInt).toNat := by
  generalize size : (limit.toInt - x.toInt).toNat = n
  induction n generalizing x with
  | zero =>
    have beyond : ¬ x < limit := fun less => by
      have := Int64.lt_iff_toInt_lt.1 less
      omega
    simpa [Passes, compareInts] using beyond
  | succ n ih =>
    have less : x < limit := Int64.lt_iff_toInt_lt.2 (by omega)
    exact ⟨decide_eq_true less, ih (x + 1) (by rw [toInt_succ less]; omega)⟩

/-- The largest integer is not below a limit, so nothing but that limit keeps a count from ending. -/
theorem le_passes (ends : limit ≠ Int64.maxValue) :
    le.Passes limit x (limit.toInt + 1 - x.toInt).toNat := by
  have top : limit < Int64.maxValue := by
    rw [Int64.lt_iff_toInt_lt, Int64.toInt_maxValue]
    have := limit.toInt_lt
    have apart : limit.toInt ≠ Int64.maxValue.toInt := fun same => ends (Int64.toInt_inj.1 same)
    rw [Int64.toInt_maxValue] at apart
    omega
  generalize size : (limit.toInt + 1 - x.toInt).toNat = n
  induction n generalizing x with
  | zero =>
    have beyond : ¬ x ≤ limit := fun less => by
      have := Int64.le_iff_toInt_le.1 less
      omega
    simpa [Passes, compareInts] using beyond
  | succ n ih =>
    have less : x ≤ limit := Int64.le_iff_toInt_le.2 (by omega)
    have below : x < Int64.maxValue := by
      rw [Int64.lt_iff_toInt_lt] at top ⊢
      have := Int64.le_iff_toInt_le.1 less
      omega
    exact ⟨decide_eq_true less, ih (by rw [toInt_succ below]; omega)⟩

/-- No integer is above the largest one. -/
theorem le_maxValue (x : Int64) : le.compareInts x Int64.maxValue = true := by
  refine decide_eq_true (Int64.le_iff_toInt_le.2 ?_)
  have := x.toInt_lt
  rw [Int64.toInt_maxValue]
  omega

end Primitive

namespace Typed

section Settling

variable {α β : Type}

/-- With enough fuel the evaluation ends with the value, and leaves the machine. -/
def Settles (x : Nat → Eval α) (m : Machine) (a : α) (m' : Machine) : Prop :=
  ∃ least, ∀ fuel, least ≤ fuel → x fuel m = .ok a m'

/-- No fuel is enough for the evaluation. -/
def Stalls (x : Nat → Eval α) (m : Machine) : Prop := ∀ fuel, ∃ m', x fuel m = .error .outOfFuel m'

/-- More fuel only matters where there has not been enough. -/
def Rising (x : Nat → Eval α) : Prop := ∀ less more, less ≤ more → Below (x less) (x more)

variable {x : Nat → Eval α} {f : α → Nat → Eval β} {m m₁ m' : Machine} {a : α} {b : β}

theorem Rising.settles (rising : Rising x) {fuel : Nat} (run : x fuel m = .ok a m') :
    Settles x m a m' := by
  refine ⟨fuel, fun more enough => ?_⟩
  rcases rising _ _ enough m with same | ⟨stop, m₁, -, stopped⟩
  · rw [← same, run]
  · cases run.symm.trans stopped

/-- An evaluation that settles ends early only for want of fuel. -/
theorem Settles.at_fuel (settles : Settles x m a m') (rising : Rising x) (fuel : Nat) :
    x fuel m = .ok a m' ∨ ∃ m₁, x fuel m = .error .outOfFuel m₁ := by
  obtain ⟨least, enough⟩ := settles
  rcases rising _ _ (Nat.le_max_left fuel least) m with same | ⟨_, m₁, rfl, stopped⟩
  · exact .inl (same.trans (enough _ (Nat.le_max_right fuel least)))
  · exact .inr ⟨m₁, stopped⟩

theorem Settles.unique {c : α} {m₂ : Machine} (first : Settles x m a m₁) (second : Settles x m c m₂) :
    a = c ∧ m₁ = m₂ := by
  obtain ⟨least, enough⟩ := first
  obtain ⟨least', enough'⟩ := second
  have same := (enough _ (Nat.le_max_left least least')).symm.trans
    (enough' _ (Nat.le_max_right least least'))
  exact ⟨(EStateM.Result.ok.inj same).1, (EStateM.Result.ok.inj same).2⟩

theorem settles_pure (a : α) (m : Machine) : Settles (fun _ => pure a) m a m := ⟨0, fun _ _ => rfl⟩

theorem settles_modify (change : Machine → Machine) (m : Machine) :
    Settles (fun _ => modify change) m () (change m) := ⟨0, fun _ _ => rfl⟩

theorem settles_bind (first : Settles x m a m₁) (rest : Settles (f a) m₁ b m') :
    Settles (fun fuel => x fuel >>= fun a => f a fuel) m b m' := by
  obtain ⟨least, enough⟩ := first
  obtain ⟨least', enough'⟩ := rest
  refine ⟨max least least', fun fuel more => ?_⟩
  simp only [bind, EStateM.bind, enough fuel (by omega), enough' fuel (by omega)]

theorem stalls_bind (rising : Rising x) (first : Settles x m a m₁) (rest : Stalls (f a) m₁) :
    Stalls (fun fuel => x fuel >>= fun a => f a fuel) m := by
  intro fuel
  rcases first.at_fuel rising fuel with run | ⟨m₂, stopped⟩
  · obtain ⟨m₂, stopped⟩ := rest fuel
    exact ⟨m₂, by simp only [bind, EStateM.bind, run, stopped]⟩
  · exact ⟨m₂, by simp only [bind, EStateM.bind, stopped]⟩

theorem stalls_head (first : Stalls x m) : Stalls (fun fuel => x fuel >>= fun a => f a fuel) m := by
  intro fuel
  obtain ⟨m₁, stopped⟩ := first fuel
  exact ⟨m₁, by simp only [bind, EStateM.bind, stopped]⟩

end Settling

namespace Program

variable (p : Program)

/-- The evaluation of the expression ends with the value, and leaves the machine. -/
abbrev Returns (e : Expr) (m : Machine) (v : Value) (m' : Machine) : Prop :=
  Settles (fun fuel => p.eval fuel e) m v m'

/-- The expressions are evaluated one after the other. -/
abbrev ReturnsAll (es : List Expr) (m : Machine) (vs : List Value) (m' : Machine) : Prop :=
  Settles (fun fuel => es.mapM (p.eval fuel)) m vs m'

/-- The evaluation of the expression never ends. -/
abbrev Diverges (e : Expr) (m : Machine) : Prop := Stalls (fun fuel => p.eval fuel e) m

end Program

section Nodes

variable {p : Program} {ty : Option Ty} {e d left right condition round body : Expr} {es : List Expr}
  {m m₁ m₂ m' : Machine} {u v w : Value} {vs : List Value} {id : LoopId} {s : SlotId}

theorem eval_rising (e : Expr) : Rising fun fuel => p.eval fuel e := fun _ _ more => eval_below more e

theorem operands_rising (es : List Expr) : Rising fun fuel => es.mapM (p.eval fuel) :=
  fun _ _ more => follows_mapM (eval_below more) es

theorem returns_node (node : Settles (fun fuel => p.evalNode (p.eval fuel) e) m v m') :
    p.Returns e m v m' := by
  obtain ⟨least, enough⟩ := node
  refine ⟨least + 1, fun fuel more => ?_⟩
  obtain ⟨fuel, rfl⟩ : ∃ n, fuel = n + 1 := ⟨fuel - 1, by omega⟩
  exact enough fuel (by omega)

theorem diverges_node (node : Stalls (fun fuel => p.evalNode (p.eval fuel) e) m) : p.Diverges e m := by
  intro fuel
  cases fuel with
  | zero => exact ⟨m, rfl⟩
  | succ fuel => exact node fuel

theorem returnsAll_nil (p : Program) (m : Machine) : p.ReturnsAll [] m [] m := settles_pure [] m

theorem returnsAll_cons (first : p.Returns e m v m₁) (rest : p.ReturnsAll es m₁ vs m') :
    p.ReturnsAll (e :: es) m (v :: vs) m' := by
  simp only [Program.ReturnsAll, List.mapM_cons]
  exact settles_bind first (settles_bind rest (settles_pure _ _))

theorem returns_slot (holds : m.slot s = v) : p.Returns ⟨ty, .slot s⟩ m v m :=
  returns_node ⟨0, fun _ _ => holds ▸ rfl⟩

theorem returns_literal (l : Literal) : p.Returns ⟨ty, .literal l⟩ m l.toValue m :=
  returns_node ⟨0, fun _ _ => rfl⟩

theorem returns_assign (value : p.Returns e m v m₁) :
    p.Returns ⟨ty, .assign s e⟩ m v (m₁.setSlot s v) :=
  returns_node (settles_bind value (settles_bind (settles_modify _ _) (settles_pure _ _)))

theorem returns_sequence_last (last : p.Returns e m v m') : p.Returns ⟨ty, .sequence [e]⟩ m v m' :=
  returns_node (settles_bind last (settles_pure _ _))

theorem returns_sequence_cons (first : p.Returns d m v m₁)
    (rest : p.Returns ⟨ty, .sequence (e :: es)⟩ m₁ w m') :
    p.Returns ⟨ty, .sequence (d :: e :: es)⟩ m w m' := by
  refine returns_node (settles_bind first ?_)
  obtain ⟨least, enough⟩ := rest
  exact ⟨least, fun fuel more => enough (fuel + 1) (by omega)⟩

theorem diverges_sequence_cons (first : p.Returns d m v m₁)
    (rest : p.Diverges ⟨ty, .sequence (e :: es)⟩ m₁) : p.Diverges ⟨ty, .sequence (d :: e :: es)⟩ m :=
  diverges_node (stalls_bind (eval_rising d) first fun fuel => rest (fuel + 1))

theorem diverges_sequence_head (first : p.Diverges e m) : p.Diverges ⟨ty, .sequence (e :: es)⟩ m :=
  diverges_node (stalls_head first)

theorem returns_primitive {operation : Primitive} (receiver : p.Returns e m v m₁)
    (arguments : p.ReturnsAll es m₁ vs m') (result : operation.apply v vs = .ok u) :
    p.Returns ⟨ty, .primitive operation e es⟩ m u m' := by
  refine returns_node (settles_bind receiver (settles_bind arguments ?_))
  rw [result]
  exact settles_pure u m'

theorem returns_dispatch {temps : List SlotId} {arms : List Arm} {arm : Arm}
    (operands : p.ReturnsAll es m vs m₁) (found : arms.find? (Arm.fits vs) = some arm)
    (inner : p.Returns arm.body (m₁.bindSlots temps vs) v m') :
    p.Returns ⟨ty, .dispatch es temps arms⟩ m v m' := by
  refine returns_node (settles_bind operands (settles_bind (settles_modify _ _) ?_))
  simpa only [found] using inner

theorem returns_yield {parameters locals : List SlotId} (operands : p.ReturnsAll es m vs m₁)
    (inner : p.Returns body ((m₁.clearSlots locals).bindOrClear parameters vs) v m') :
    p.Returns ⟨ty, .yield parameters locals es body⟩ m v m' :=
  returns_node (settles_bind operands (settles_bind (settles_modify _ _) inner))

theorem returns_while_stop (test : p.Returns condition m v m') (stops : v.countsAsTrue = false) :
    p.Returns ⟨ty, .while id condition round⟩ m .nil m' := by
  obtain ⟨least, enough⟩ := test
  refine returns_node ⟨least, fun fuel more => ?_⟩
  simp [Program.evalNode, enough fuel more, stops]

theorem returns_while_round (test : p.Returns condition m v m₁) (goes : v.countsAsTrue = true)
    (inner : p.Returns round m₁ w m₂) (again : p.Returns ⟨ty, .while id condition round⟩ m₂ u m') :
    p.Returns ⟨ty, .while id condition round⟩ m u m' := by
  obtain ⟨least, enough⟩ := test
  obtain ⟨least', enough'⟩ := inner
  obtain ⟨least'', enough''⟩ := again
  refine returns_node ⟨max (max least least') least'', fun fuel more => ?_⟩
  simp [Program.evalNode, enough fuel (by omega), goes, enough' fuel (by omega),
    enough'' fuel (by omega)]

/-- A loop whose test holds again after each round never ends. -/
theorem diverges_while {I : Machine → Prop}
    (rounds : ∀ m, I m → ∃ v m₁ w m₂, p.Returns condition m v m₁ ∧ v.countsAsTrue = true ∧
      p.Returns round m₁ w m₂ ∧ I m₂) (holds : I m) :
    p.Diverges ⟨ty, .while id condition round⟩ m := by
  intro fuel
  induction fuel generalizing m with
  | zero => exact ⟨m, rfl⟩
  | succ fuel ih =>
    obtain ⟨v, m₁, w, m₂, test, goes, inner, again⟩ := rounds m holds
    simp only [Program.eval, Program.evalNode]
    rcases test.at_fuel (eval_rising _) fuel with run | ⟨m₃, stopped⟩
    · rcases inner.at_fuel (eval_rising _) fuel with run' | ⟨m₃, stopped⟩
      · obtain ⟨m₃, stopped⟩ := ih again
        exact ⟨m₃, by simp [run, goes, run', stopped]⟩
      · exact ⟨m₃, by simp [run, goes, stopped]⟩
    · exact ⟨m₃, by simp [stopped]⟩

/-- The machine on which the body of an expanded method starts. -/
def ExpandedCall.entered (c : ExpandedCall) (receiver : Value) (arguments : List Value) (m : Machine) :
    Machine :=
  ((m.clearSlots c.locals).setSlot c.selfSlot receiver).bindSlots c.parameters arguments

variable {c : ExpandedCall}

theorem returns_inline (receiver : p.Returns c.receiver m v m₁)
    (arguments : p.ReturnsAll c.arguments m₁ vs m₂)
    (body : p.Returns c.body (c.entered v vs m₂) w m') : p.Returns ⟨ty, .inline c⟩ m w m' := by
  refine returns_node (settles_bind receiver (settles_bind arguments (settles_bind
    (settles_modify _ _) ?_)))
  obtain ⟨least, enough⟩ := body
  refine ⟨least, fun fuel more => ?_⟩
  have run : p.eval fuel c.body (((m₂.clearSlots c.locals).setSlot c.selfSlot v).bindSlots
    c.parameters vs) = .ok w m' := enough fuel more
  simp only [Eval.landing, run]

theorem diverges_inline (receiver : p.Returns c.receiver m v m₁)
    (arguments : p.ReturnsAll c.arguments m₁ vs m₂) (body : p.Diverges c.body (c.entered v vs m₂)) :
    p.Diverges ⟨ty, .inline c⟩ m := by
  refine diverges_node (stalls_bind (eval_rising _) receiver (stalls_bind (operands_rising _) arguments
    (stalls_bind (x := fun _ => modify _) (fun _ _ _ => follows_refl _) (settles_modify _ _) ?_)))
  intro fuel
  obtain ⟨m₃, stopped⟩ := body fuel
  have stopped : p.eval fuel c.body (((m₂.clearSlots c.locals).setSlot c.selfSlot v).bindSlots
    c.parameters vs) = .error .outOfFuel m₃ := stopped
  exact ⟨m₃, by simp only [Eval.landing, stopped]⟩

end Nodes

/-- The loop of a method that counts: the slot of the counter and the block that is run. The operands of
the comparison and of the addition are put into temporary slots where their types are unions. -/
structure CountingLoop where
  counter : SlotId
  parameters : List SlotId
  locals : List SlotId
  block : Expr
  compared : List SlotId
  addends : List SlotId

namespace CountingLoop

section Definitions

variable (loop : CountingLoop) (p : Program) (limit : Int64)

/-- The machine after the counter has been compared with the limit. -/
def tested (m : Machine) (x : Int64) : Machine := m.bindSlots loop.compared [.int x, .int limit]

/-- The machine on which the block starts. -/
def entered (m : Machine) (x : Int64) : Machine :=
  ((loop.tested limit m x).clearSlots loop.locals).bindOrClear loop.parameters [.int x]

/-- The machine after one has been added to the counter. -/
def advanced (m : Machine) (x : Int64) : Machine :=
  (m.bindSlots loop.addends [.int x, .int 1]).setSlot loop.counter (.int (x + 1))

/-- The block runs for so many integers, one after the other, and every run ends with a value. After the
last one the counter is compared once more. -/
inductive Rounds : Int64 → Nat → Machine → Machine → Prop
  | done (x : Int64) (m : Machine) : Rounds x 0 m (loop.tested limit m x)
  | round {x : Int64} {n : Nat} {m m₁ m' : Machine} {v : Value}
    (run : p.Returns loop.block (loop.entered limit m x) v m₁)
    (rest : Rounds (x + 1) n (loop.advanced m₁ x) m') : Rounds x (n + 1) m m'

/-- The expression yields to the block, in its own scope. -/
def YieldedBy (e : Expr) : Prop :=
  ∃ ty arguments, Expr.Stays ⟨ty, .yield loop.parameters loop.locals arguments loop.block⟩ e

/-- No operand is put into the slot, and the block does not touch it. -/
structure Reserves (s : SlotId) : Prop where
  compared : s ∉ loop.compared
  addends : s ∉ loop.addends
  entry : s ∉ loop.parameters ++ loop.locals
  block : ∀ fuel, Spares s (p.eval fuel loop.block)

/-- The test compares the counter with the slot of the limit, and a round runs the block for the counter
and adds one to it. Nothing follows a block that never ends with a value. -/
structure Turns (order : Primitive) (bound : SlotId) (condition round : Expr) : Prop where
  test : ∀ (p : Program) m x limit, m.slot loop.counter = .int x → m.slot bound = .int limit →
    p.Returns condition m (.bool (order.compareInts x limit)) (loop.tested limit m x)
  runs : ∀ (p : Program) m x v m₁, loop.block.ty.isSome = true → m.slot loop.counter = .int x →
    m₁.slot loop.counter = .int x →
    p.Returns loop.block ((m.clearSlots loop.locals).bindOrClear loop.parameters [.int x]) v m₁ →
      ∃ w, p.Returns round m w (loop.advanced m₁ x)
  yields : loop.YieldedBy round

/-- The block has a type if it ends with a value, and it leaves the counter and the limit alone. -/
structure Guards (bound : SlotId) : Prop where
  live : ∀ m v m₁, p.Returns loop.block m v m₁ → loop.block.ty.isSome = true
  counting : loop.Reserves p loop.counter
  limiting : loop.Reserves p bound
  apart : bound ≠ loop.counter

/-- The body of a method sets the counter, loops, and gives its `self`. -/
def Fills (order : Primitive) (start : Expr) (bound self : SlotId) (body : Expr) : Prop :=
  ∃ ty t t' t'' id condition round, loop.Turns order bound condition round ∧
    body = ⟨ty, .sequence [⟨t, .assign loop.counter start⟩, ⟨t', .while id condition round⟩,
      ⟨t'', .slot self⟩]⟩

/-- The body of the call is such a loop, which the block leaves alone. -/
structure Drives (order : Primitive) (c : ExpandedCall) (start : Expr) (bound : SlotId) : Prop where
  body : loop.Fills order start bound c.selfSlot c.body
  guards : loop.Guards p bound
  self : loop.Reserves p c.selfSlot
  apart : c.selfSlot ≠ loop.counter

variable (e : Expr) (c : ExpandedCall) (receiver : Int64) (arguments : List Int64) (first : Int64)

/-- The machine with the first integer, after the call has been entered. -/
def begun (m : Machine) : Machine :=
  (c.entered (.int receiver) (arguments.map .int) m).setSlot loop.counter (.int first)

/-- Where the receiver and the arguments of the call come to these integers and the block runs so many
times, from the first integer on, the call ends after these runs and gives the receiver. -/
def Iterates (n : Nat) : Prop :=
  ∀ m m₁ m₂ m', p.Returns c.receiver m (.int receiver) m₁ →
    p.ReturnsAll c.arguments m₁ (arguments.map .int) m₂ →
    loop.Rounds p limit first n (loop.begun c receiver arguments first m₂) m' →
      p.Returns e m (.int receiver) m'

/-- Where the receiver and the arguments of the call come to these integers and the block can always run
once more, the call never ends. -/
def NeverEnds : Prop :=
  ∀ m m₁ m₂, p.Returns c.receiver m (.int receiver) m₁ →
    p.ReturnsAll c.arguments m₁ (arguments.map .int) m₂ →
    (∀ n, ∃ m', loop.Rounds p limit first n (loop.begun c receiver arguments first m₂) m') →
      p.Diverges e m

end Definitions

variable {loop : CountingLoop} {p : Program} {limit x : Int64} {n : Nat} {m m₁ m' : Machine}
  {s bound : SlotId} {v : Value} {order : Primitive} {condition round : Expr}

theorem mem_boundSlots {α : Type} {slots : List SlotId} {vs : List α} (bound : s ∈ boundSlots slots vs) :
    s ∈ slots := by
  obtain ⟨b, member, rfl⟩ := List.mem_map.1 bound
  exact (List.of_mem_zip member).1

namespace Reserves

variable (reserves : loop.Reserves p s)

include reserves

theorem tested : (loop.tested limit m x).slot s = m.slot s :=
  Machine.slot_bindSlots m fun bound => reserves.compared (mem_boundSlots bound)

/-- A round of the block leaves the slot as it is. -/
theorem run (run : p.Returns loop.block (loop.entered limit m x) v m₁) : m₁.slot s = m.slot s := by
  obtain ⟨fuel, enough⟩ := run
  have free : s ∉ (Entered.block loop.parameters loop.locals loop.block).slots := reserves.entry
  have entry : (loop.entered limit m x).slot s = (loop.tested limit m x).slot s :=
    slot_enter_block _ _ free
  rw [(reserves.block fuel).returns _ _ _ (enough fuel (Nat.le_refl _)), entry, reserves.tested]

theorem advanced (other : s ≠ loop.counter) : (loop.advanced m x).slot s = m.slot s := by
  rw [CountingLoop.advanced, Machine.slot_setSlot, if_neg other]
  exact Machine.slot_bindSlots m fun bound => reserves.addends (mem_boundSlots bound)

theorem rounds (other : s ≠ loop.counter) (rounds : loop.Rounds p limit x n m m') :
    m'.slot s = m.slot s := by
  induction rounds with
  | done => exact reserves.tested
  | round run _ ih => rw [ih, reserves.advanced other, reserves.run run]

end Reserves

theorem advanced_counter : (loop.advanced m x).slot loop.counter = .int (x + 1) := by
  rw [advanced, Machine.slot_setSlot, if_pos rfl]

variable {start : Expr} {c : ExpandedCall}

section Loops

variable (turns : loop.Turns order bound condition round) (guards : loop.Guards p bound)

include turns guards

/-- One round, from the test to the addition. -/
theorem Turns.once (counted : m.slot loop.counter = .int x) (limited : m.slot bound = .int limit)
    (run : p.Returns loop.block (loop.entered limit m x) v m₁) :
    p.Returns condition m (.bool (order.compareInts x limit)) (loop.tested limit m x) ∧
      (∃ w, p.Returns round (loop.tested limit m x) w (loop.advanced m₁ x)) ∧
      (loop.advanced m₁ x).slot loop.counter = .int (x + 1) ∧
      (loop.advanced m₁ x).slot bound = .int limit := by
  refine ⟨turns.test p m x limit counted limited,
    turns.runs p _ x v m₁ (guards.live _ _ _ run) ?_ ?_ run, advanced_counter, ?_⟩
  · rw [guards.counting.tested, counted]
  · rw [guards.counting.run run, counted]
  · rw [guards.limiting.advanced guards.apart, guards.limiting.run run, limited]

/-- The loop ends with the rounds for which its test holds. -/
theorem Turns.returns {ty : Option Ty} {id : LoopId} (counted : m.slot loop.counter = .int x)
    (limited : m.slot bound = .int limit) (rounds : loop.Rounds p limit x n m m')
    (passes : order.Passes limit x n) : p.Returns ⟨ty, .while id condition round⟩ m .nil m' := by
  induction rounds with
  | done x m => exact returns_while_stop (turns.test p m x limit counted limited) passes
  | round run _ ih =>
    obtain ⟨test, ⟨w, inner⟩, counted', limited'⟩ := turns.once guards counted limited run
    exact returns_while_round test passes.1 inner (ih counted' limited' passes.2)

/-- If the test always holds and the block always ends, the loop does not. -/
theorem Turns.diverges {ty : Option Ty} {id : LoopId} (counted : m.slot loop.counter = .int x)
    (limited : m.slot bound = .int limit) (rounds : ∀ n, ∃ m', loop.Rounds p limit x n m m')
    (passes : ∀ x, order.compareInts x limit = true) :
    p.Diverges ⟨ty, .while id condition round⟩ m := by
  refine diverges_while (I := fun m => ∃ x, m.slot loop.counter = .int x ∧ m.slot bound = .int limit ∧
    ∀ n, ∃ m', loop.Rounds p limit x n m m') ?_ ⟨x, counted, limited, rounds⟩
  rintro m ⟨x, counted, limited, rounds⟩
  obtain ⟨m', first⟩ := rounds 1
  cases first with
  | @round _ _ _ m₁ _ v run rest =>
    obtain ⟨test, ⟨w, inner⟩, counted', limited'⟩ := turns.once guards counted limited run
    refine ⟨_, _, w, _, test, passes x, inner, x + 1, counted', limited', fun n => ?_⟩
    obtain ⟨m', more⟩ := rounds (n + 1)
    cases more with
    | round run' rest =>
      obtain ⟨-, rfl⟩ := run.unique run'
      exact ⟨m', rest⟩

end Loops

section Calls

variable (drives : loop.Drives p order c start bound) (limited : m.slot bound = .int limit)
  (first : p.Returns start m (.int x) m)

include drives limited first

/-- The body of the call runs the block as long as the test holds, and gives the receiver. -/
theorem Drives.returns {receiver : Value} (self : m.slot c.selfSlot = receiver)
    (rounds : loop.Rounds p limit x n (m.setSlot loop.counter (.int x)) m')
    (passes : order.Passes limit x n) : p.Returns c.body m receiver m' := by
  obtain ⟨ty, t, t', t'', id, condition, round, turns, body⟩ := drives.body
  rw [body]
  have counted : (m.setSlot loop.counter (.int x)).slot loop.counter = .int x := by
    rw [Machine.slot_setSlot, if_pos rfl]
  have limited' : (m.setSlot loop.counter (.int x)).slot bound = .int limit := by
    rw [Machine.slot_setSlot, if_neg drives.guards.apart, limited]
  have kept : m'.slot c.selfSlot = receiver := by
    rw [drives.self.rounds drives.apart rounds, Machine.slot_setSlot, if_neg drives.apart, self]
  exact returns_sequence_cons (returns_assign first) (returns_sequence_cons
    (turns.returns drives.guards counted limited' rounds passes)
    (returns_sequence_last (returns_slot kept)))

theorem Drives.diverges
    (rounds : ∀ n, ∃ m', loop.Rounds p limit x n (m.setSlot loop.counter (.int x)) m')
    (passes : ∀ x, order.compareInts x limit = true) : p.Diverges c.body m := by
  obtain ⟨ty, t, t', t'', id, condition, round, turns, body⟩ := drives.body
  rw [body]
  refine diverges_sequence_cons (returns_assign first) (diverges_sequence_head
    (turns.diverges drives.guards ?_ ?_ rounds passes))
  · rw [Machine.slot_setSlot, if_pos rfl]
  · rw [Machine.slot_setSlot, if_neg drives.guards.apart, limited]

end Calls

/-- The block is the one that the body of the method yields to. -/
theorem Fills.yields {self : SlotId} {body : Expr} (fills : loop.Fills order start bound self body) :
    loop.YieldedBy body := by
  obtain ⟨ty, t, t', t'', id, condition, round, turns, rfl⟩ := fills
  obtain ⟨ty', arguments, stays⟩ := turns.yields
  exact ⟨ty', arguments, .part (List.mem_cons_of_mem _ List.mem_cons_self)
    (.part (List.mem_cons_of_mem _ List.mem_cons_self) stays)⟩

/-- An expanded method drives its loop if the block leaves the slots of the expansion alone and the
temporary slots are others. -/
theorem Fills.drives (fills : loop.Fills order start bound c.selfSlot c.body)
    (isolated : ∀ ty parameters locals arguments body,
      Expr.Stays ⟨ty, .yield parameters locals arguments body⟩ c.body →
        (∀ m v m₁, p.Returns body m v m₁ → body.ty.isSome = true) ∧
          ∀ s ∈ c.slots, s ∉ parameters ++ locals ∧ ∀ fuel, Spares s (p.eval fuel body))
    (own : ∀ s ∈ [loop.counter, bound, c.selfSlot], s ∈ c.slots ∧ s ∉ loop.compared ++ loop.addends)
    (apart : bound ≠ loop.counter) (self : c.selfSlot ≠ loop.counter) :
    loop.Drives p order c start bound := by
  obtain ⟨ty, arguments, stays⟩ := fills.yields
  obtain ⟨live, spared⟩ := isolated _ _ _ _ _ stays
  have reserves (s : SlotId) (listed : s ∈ [loop.counter, bound, c.selfSlot]) : loop.Reserves p s := by
    obtain ⟨inside, new⟩ := own s listed
    rw [List.mem_append, not_or] at new
    exact ⟨new.1, new.2, (spared s inside).1, (spared s inside).2⟩
  exact ⟨fills, ⟨live, reserves _ (by simp), reserves _ (by simp), apart⟩, reserves _ (by simp), self⟩

section Calls

variable {e : Expr} {receiver : Int64} {arguments : List Int64} (drives : loop.Drives p order c start bound)
  (node : e.node = .inline c)
  (entered : ∀ m, let m' := c.entered (.int receiver) (arguments.map .int) m
    m'.slot c.selfSlot = .int receiver ∧ m'.slot bound = .int limit ∧ p.Returns start m' (.int x) m')

include drives node entered

theorem Drives.iterates (passes : order.Passes limit x n) :
    loop.Iterates p limit e c receiver arguments x n := by
  intro m m₁ m₂ m' left right rounds
  obtain ⟨self, limited, first⟩ := entered m₂
  obtain ⟨ty, _⟩ := e
  cases node
  exact returns_inline left right (drives.returns limited first self rounds passes)

theorem Drives.neverEnds (passes : ∀ x, order.compareInts x limit = true) :
    loop.NeverEnds p limit e c receiver arguments x := by
  intro m m₁ m₂ left right rounds
  obtain ⟨-, limited, first⟩ := entered m₂
  obtain ⟨ty, _⟩ := e
  cases node
  exact diverges_inline left right (drives.diverges limited first rounds passes)

end Calls

end CountingLoop

end Typed

end TypedBlocks

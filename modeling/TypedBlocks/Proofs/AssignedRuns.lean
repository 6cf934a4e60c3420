import TypedBlocks.Proofs.DefiniteAssignment

/-!
# Runs and definite assignment

What the rules of definite assignment promise holds in watched runs: slots that are not assigned are
nil, and they are only read with types that have nil.
-/
namespace TypedBlocks

open Typed (SlotId SlotSet)

/-- A slot that is read unassigned gives nil, and the type of the read has nil. -/
def Event.Sound (ev : Event) : Prop :=
  ∀ s, ev.expr.node = .slot s → s ∉ ev.assigned →
    ev.value = .nil ∧ ∃ t, ev.expr.ty = some t ∧ Ty.nil ≤ t

/-- Slots that are not assigned are nil, and all reads so far were sound. -/
structure Watch.Clean (w : Watch) : Prop where
  unassigned : ∀ s, s ∉ w.assigned → w.machine.slot s = .nil
  events : ∀ ev ∈ w.events, ev.Sound

def Watch.Has (w : Watch) (A : SlotSet) : Prop := ∀ s, A s → s ∈ w.assigned

namespace Typed

/-- From a clean state with the slots of the first two sets assigned, the evaluation keeps the state
clean and the first set assigned however it ends. With a value it also has the last set assigned. -/
structure Keeps {α : Type} (K A : SlotSet) (x : Watched α) (P : α → Prop) (A' : SlotSet) : Prop where
  returns : ∀ w a w', w.Clean → w.Has K → w.Has A → x w = .ok a w' →
    w'.Clean ∧ w'.Has K ∧ w'.Has A' ∧ P a
  stops : ∀ w stop w', w.Clean → w.Has K → w.Has A → x w = .error stop w' →
    w'.Clean ∧ w'.Has K

section Combinators

variable {α β : Type} {K A A₁ A' : SlotSet} {P : α → Prop} {Q : β → Prop} {x : Watched α}

theorem keeps_pure {a : α} (holds : P a) (after : ∀ s, A' s → A s) :
    Keeps K A (pure a : Watched α) P A' where
  returns w _ _ clean keep has h := by
    cases h
    exact ⟨clean, keep, fun s inside => has s (after s inside), holds⟩
  stops _ _ _ _ _ _ h := by cases h

theorem keeps_read (f : Watch → α) (after : ∀ s, A' s → A s) :
    Keeps K A (do return f (← get) : Watched α) (fun _ => True) A' where
  returns w _ _ clean keep has h := by
    cases h
    exact ⟨clean, keep, fun s inside => has s (after s inside), trivial⟩
  stops _ _ _ _ _ _ h := by cases h

theorem keeps_throw (stop : Stop) : Keeps K A (throw stop : Watched α) P A' where
  returns _ _ _ _ _ _ h := by cases h
  stops _ _ _ clean keep _ h := by
    cases h
    exact ⟨clean, keep⟩

theorem keeps_bind {f : α → Watched β} (first : Keeps K A x P A₁)
    (next : ∀ a, P a → Keeps K A₁ (f a) Q A') : Keeps K A (x >>= f) Q A' where
  returns w b w' clean keep has h := by
    obtain ⟨a, w₁, ran, rest⟩ := bind_eq_ok.1 h
    obtain ⟨clean₁, keep₁, has₁, holds⟩ := first.returns _ _ _ clean keep has ran
    exact (next a holds).returns _ _ _ clean₁ keep₁ has₁ rest
  stops w stop w' clean keep has h := by
    rcases bind_eq_error.1 h with stopped | ⟨a, w₁, ran, rest⟩
    · exact first.stops _ _ _ clean keep has stopped
    · obtain ⟨clean₁, keep₁, has₁, holds⟩ := first.returns _ _ _ clean keep has ran
      exact (next a holds).stops _ _ _ clean₁ keep₁ has₁ rest

/-- A step that leaves the slots alone. -/
theorem keeps_lift {x : Eval α} (same : ∀ m a m', x m = .ok a m' → m'.slots = m.slots)
    (same' : ∀ m stop m', x m = .error stop m' → m'.slots = m.slots) (after : ∀ s, A' s → A s) :
    Keeps K A (Watched.lift x) (fun _ => True) A' := by
  have clean' {w : Watch} {m' : Machine} (clean : w.Clean) (same : m'.slots = w.machine.slots) :
      Watch.Clean { w with machine := m' } :=
    ⟨fun s free => by
      have nil := clean.unassigned s free
      rw [Machine.slot] at nil
      rwa [Machine.slot, same], clean.events⟩
  constructor
  · intro w a w' clean keep has h
    obtain ⟨m, run, rfl⟩ := Watched.lift_eq_ok.1 h
    exact ⟨clean' clean (same _ _ _ run), keep, fun s inside => has s (after s inside), trivial⟩
  · intro w stop w' clean keep has h
    obtain ⟨m, run, rfl⟩ := Watched.lift_eq_error.1 h
    exact ⟨clean' clean (same' _ _ _ run), keep⟩

/-- A change of slots: those that are not assigned after it are nil. -/
theorem keeps_change (A' : SlotSet) {change : Machine → Machine}
    {assigned : List SlotId → List SlotId}
    (nil : ∀ w : Watch, w.Clean → ∀ s, s ∉ assigned w.assigned → (change w.machine).slot s = .nil)
    (keeps : ∀ l s, K s → s ∈ l → s ∈ assigned l)
    (after : ∀ l, (∀ s, A s → s ∈ l) → ∀ s, A' s → s ∈ assigned l) :
    Keeps K A (Watched.bind change assigned) (fun _ => True) A' where
  returns w _ _ clean keep has h := by
    cases h
    exact ⟨⟨nil w clean, clean.events⟩, fun s inside => keeps _ s inside (keep s inside),
      after _ has, trivial⟩
  stops _ _ _ _ _ _ h := by cases h

/-- Fewer slots are assigned if the evaluation gives a value. -/
theorem Keeps.weaken (keeps : Keeps K A x P A₁)
    (after : ∀ w a w', x w = .ok a w' → ∀ s, A' s → A₁ s) : Keeps K A x P A' where
  returns w a w' clean keep has h := by
    obtain ⟨clean', keep', has', holds⟩ := keeps.returns w a w' clean keep has h
    exact ⟨clean', keep', fun s inside => has' s (after w a w' h s inside), holds⟩
  stops := keeps.stops

/-- Of what is assigned before, more can be kept than is asked for. -/
theorem Keeps.fewer {K' : SlotSet} (keeps : Keeps K' A x P A₁) (fewer : ∀ s, K s → K' s)
    (more : ∀ s, K' s → K s ∨ A s) (after : ∀ s, A' s → K' s ∨ A₁ s) : Keeps K A x P A' := by
  have all {w : Watch} (keep : w.Has K) (has : w.Has A) : w.Has K' := fun s inside =>
    (more s inside).elim (keep s) (has s)
  constructor
  · intro w a w' clean keep has h
    obtain ⟨clean', keep', has', holds⟩ := keeps.returns w a w' clean (all keep has) has h
    exact ⟨clean', fun s inside => keep' s (fewer s inside),
      fun s inside => (after s inside).elim (keep' s) (has' s), holds⟩
  · intro w stop w' clean keep has h
    obtain ⟨clean', keep'⟩ := keeps.stops w stop w' clean (all keep has) has h
    exact ⟨clean', fun s inside => keep' s (fewer s inside)⟩

/-- An exit that lands has kept what there is to be assigned. -/
theorem keeps_landing {land : Exit → Option Value} {x : Watched Value} {K' : SlotSet}
    (inner : Keeps K' A x (fun _ => True) A') (fewer : ∀ s, K s → K' s)
    (more : ∀ s, K' s → K s ∨ A s)
    (lands : ∀ w e w' v, x w = .error (.exit e) w' → land e = some v → ∀ s, A' s → K' s) :
    Keeps K A (Watched.landing land x) (fun _ => True) A' := by
  have all {w : Watch} (keep : w.Has K) (has : w.Has A) : w.Has K' := fun s inside =>
    (more s inside).elim (keep s) (has s)
  constructor
  · intro w v w' clean keep has h
    cases Watched.landing_ends h with
    | value run =>
      obtain ⟨clean', keep', rest⟩ := inner.returns w v w' clean (all keep has) has run
      exact ⟨clean', fun s inside => keep' s (fewer s inside), rest⟩
    | lands left found =>
      obtain ⟨clean', keep'⟩ := inner.stops w _ _ clean (all keep has) has left
      exact ⟨clean', fun s inside => keep' s (fewer s inside),
        fun s inside => keep' s (lands _ _ _ _ left found s inside), trivial⟩
  · intro w stop w' clean keep has h
    cases Watched.landing_ends h with
    | passes run _ | stops run _ =>
      obtain ⟨clean', keep'⟩ := inner.stops w _ _ clean (all keep has) has run
      exact ⟨clean', fun s inside => keep' s (fewer s inside)⟩

/-- An evaluation in a frame of its own assigns no slot of the present one. -/
theorem keeps_inFrame {slots : Array Value} {assigned : List SlotId} {A₀ : SlotSet}
    (inner : Keeps (fun _ => False) A₀ x (fun _ => True) A₁)
    (nil : ∀ s : SlotId, s ∉ assigned → slots.getD s.val .nil = .nil)
    (enough : ∀ s, A₀ s → s ∈ assigned) (after : ∀ s, A' s → A s) :
    Keeps K A (Watched.inFrame slots assigned x) (fun _ => True) A' := by
  have clean₀ {w : Watch} (clean : w.Clean) :
      Watch.Clean { w with machine := { w.machine with slots }, assigned } :=
    ⟨nil, clean.events⟩
  constructor
  · intro w a w' clean keep has h
    obtain ⟨w₁, run, rfl⟩ := Watched.inFrame_eq_ok.1 h
    have clean₁ := (inner.returns _ _ _ (clean₀ clean) (by rintro _ ⟨⟩) enough run).1
    exact ⟨⟨clean.unassigned, clean₁.events⟩, keep, fun s inside => has s (after s inside), trivial⟩
  · intro w stop w' clean keep has h
    obtain ⟨w₁, run, rfl⟩ := Watched.inFrame_eq_error.1 h
    have clean₁ := (inner.stops _ _ _ (clean₀ clean) (by rintro _ ⟨⟩) enough run).1
    exact ⟨⟨clean.unassigned, clean₁.events⟩, keep⟩

end Combinators

section Programs

variable {p : Program} {globals constants : List (String × Ty)} {fuel : Nat} {e : Expr}
  {K A A' : SlotSet}

theorem Expr.Empties.part {d : Expr} {s : SlotId} (empties : d.Empties s)
    (part : d ∈ e.node.parts) : e.Empties s := by
  obtain ⟨f, inside, emptied⟩ := empties
  exact ⟨f, inside.trans (.part part (.self d)), emptied⟩

/-- Every part names only what some scope of the method has. -/
theorem Node.scoped_part {n : Node} {σ : Scope} (inScope : n.Scoped σ) {d : Expr}
    (part : d ∈ n.parts) : ∃ τ : Scope, τ.arity = σ.arity ∧ d.Scoped τ := by
  have listed {es : List Expr} (all : ListScoped σ es) (member : d ∈ es) :
      ∃ τ : Scope, τ.arity = σ.arity ∧ d.Scoped τ := ⟨σ, rfl, listScoped_iff.1 all d member⟩
  have here (inScope : d.Scoped σ) : ∃ τ : Scope, τ.arity = σ.arity ∧ d.Scoped τ :=
    ⟨σ, rfl, inScope⟩
  cases n with
  | literal _ | slot _ | instanceVar _ _ | global _ | constant _ | classRef _ | mainObject =>
    cases part
  | assign _ _ | assignInstanceVar _ _ _ | «return» _ _ | «break» _ _ =>
    cases List.mem_singleton.1 part
    exact here inScope.2
  | assignGlobal _ _ | assignConstant _ _ | not _ =>
    cases List.mem_singleton.1 part
    exact here inScope
  | sequence parts => exact listed inScope (by simpa [Node.parts, Node.operands, Node.landing?] using part)
  | conditional condition consequent alternative =>
    have member : d = condition ∨ d = consequent ∨ d = alternative := by
      simpa [Node.parts, Node.operands, Node.landing?] using part
    rcases member with rfl | rfl | rfl
    · exact here inScope.1
    · exact here inScope.2.1
    · exact here inScope.2.2
  | «while» id condition body =>
    have member : d = condition ∨ d = body := by
      simpa [Node.parts, Node.operands, Node.landing?] using part
    rcases member with rfl | rfl
    · exact here inScope.1
    · exact ⟨σ.inLoop id, rfl, inScope.2⟩
  | and left right | or left right =>
    have member : d = left ∨ d = right := by
      simpa [Node.parts, Node.operands, Node.landing?] using part
    rcases member with rfl | rfl
    · exact here inScope.1
    · exact here inScope.2
  | call id receiver arguments =>
    have member : d = receiver ∨ d ∈ arguments := by
      simpa [Node.parts, Node.operands, Node.landing?] using part
    rcases member with rfl | member
    · exact here inScope.2.1
    · exact listed inScope.2.2 member
  | primitive operation receiver arguments =>
    have member : d = receiver ∨ d ∈ arguments := by
      simpa [Node.parts, Node.operands, Node.landing?] using part
    rcases member with rfl | member
    · exact here inScope.1
    · exact listed inScope.2 member
  | construct className initializer arguments =>
    exact listed inScope.2 (by simpa [Node.parts, Node.operands, Node.landing?] using part)
  | foreign lib name arguments =>
    exact listed inScope (by simpa [Node.parts, Node.operands, Node.landing?] using part)
  | inline c =>
    rcases c with ⟨site, frame, name, selfSlot, receiver, parameters, slots, arguments, body, b, r⟩
    obtain ⟨-, -, -, receiverIn, argumentsIn, bodyIn⟩ := inScope
    have member : d = receiver ∨ d ∈ arguments ∨ d = body := by
      simpa [Node.parts, Node.operands, Node.landing?, or_assoc] using part
    rcases member with rfl | member | rfl
    · exact here receiverIn
    · exact listed argumentsIn member
    · exact ⟨σ.inExpansion frame site, rfl, bodyIn⟩
  | yield parameters slots arguments body =>
    obtain ⟨-, -, argumentsIn, bodyIn⟩ := inScope
    have member : d ∈ arguments ∨ d = body := by
      simpa [Node.parts, Node.operands, Node.landing?] using part
    rcases member with member | rfl
    · exact listed argumentsIn member
    · exact here bodyIn
  | dispatch scrutinees temps arms =>
    obtain ⟨-, scrutineesIn, armsIn⟩ := inScope
    have member : d ∈ scrutinees ∨ ∃ arm ∈ arms, arm.body = d := by
      simpa [Node.parts, Node.operands, Node.landing?] using part
    rcases member with member | ⟨arm, member, rfl⟩
    · exact listed scrutineesIn member
    · exact here (armsScoped_iff.1 armsIn arm member)

theorem Expr.Inside.inScope {d : Expr} (inside : d.Inside e) {σ : Scope} (inScope : e.Scoped σ) :
    ∃ τ : Scope, τ.arity = σ.arity ∧ d.Scoped τ := by
  induction inside generalizing σ with
  | self => exact ⟨σ, rfl, inScope⟩
  | @part d e f direct inside ih =>
    rcases f with ⟨ty, node⟩
    obtain ⟨τ, same, inScope'⟩ := Node.scoped_part inScope direct
    obtain ⟨ρ, same', there⟩ := ih inScope'
    exact ⟨ρ, same'.trans same, there⟩

theorem Program.Within.inScope (whole : p.Scoped) (within : p.Within e) :
    ∃ τ : Scope, τ.arity = p.arity ∧ e.Scoped τ := by
  obtain ⟨m, member, inside⟩ := within
  refine inside.inScope (σ := m.scope p.arity) ?_
  rcases List.mem_cons.1 member with rfl | listed
  · exact whole.main.body
  · exact (whole.methods m (Array.mem_toList_iff.1 listed)).body

/-- The method that an expression of the program names is there, with as many parameters as the scope
has it with. -/
theorem Program.Within.callee (whole : p.Scoped) (within : p.Within e) {id : InstanceId} {n : Nat}
    (named : ∀ τ : Scope, e.Scoped τ → τ.arity id = some n) :
    ∃ m ∈ p.allMethods, m.parameters.length = n ∧ Watched.lift (p.methodOrFault id) = pure m := by
  obtain ⟨τ, same, inScope⟩ := within.inScope whole
  have known : p.arity id = some n := same ▸ named τ inScope
  obtain ⟨m, found, length⟩ := Option.map_eq_some_iff.1 known
  refine ⟨m, List.mem_cons_of_mem _ (Array.mem_toList_iff.2 (Program.method?_mem found)), length, ?_⟩
  rw [Program.methodOrFault, found]
  rfl

/-- Expressions in order, for the values of all of them. -/
theorem keeps_mapM {es : List Expr} (definite : DefiniteInOrder A es A')
    (each : ∀ d ∈ es, ∀ A A', d.Definite A A' →
      Keeps K A (p.watch fuel d) (fun _ => True) A') :
    Keeps K A (es.mapM (p.watch fuel)) (fun vs => vs.length = es.length) A' := by
  induction es generalizing A with
  | nil =>
    cases definite with
    | nil after => exact keeps_pure rfl after
  | cons e es ih =>
    cases definite with
    | cons first rest =>
      rw [List.mapM_cons]
      refine keeps_bind (each e List.mem_cons_self _ _ first) fun v _ =>
        keeps_bind (ih rest fun d member => each d (List.mem_cons_of_mem _ member))
          fun vs length => keeps_pure ?_ fun _ => id
      rw [List.length_cons, List.length_cons, length]

/-- An evaluation that goes on after one operand. -/
theorem keeps_operand {value : Expr} {f : Value → Watched Value} (definite : DefiniteInOrder A [value] A')
    (each : ∀ A A', value.Definite A A' → Keeps K A (p.watch fuel value) (fun _ => True) A')
    (next : ∀ v, Keeps K A' (f v) (fun _ => True) A') :
    Keeps K A (p.watch fuel value >>= f) (fun _ => True) A' := by
  cases definite with
  | cons first rest =>
    cases rest with
    | nil after => exact keeps_bind ((each _ _ first).weaken fun _ _ _ _ => after) fun v _ => next v

/-- An evaluation that goes on after a receiver and the arguments. -/
theorem keeps_send {receiver : Expr} {arguments : List Expr} {f : Value → List Value → Watched Value}
    {A₁ : SlotSet} (definite : DefiniteInOrder A (receiver :: arguments) A₁)
    (each : ∀ d ∈ receiver :: arguments, ∀ A A', d.Definite A A' →
      Keeps K A (p.watch fuel d) (fun _ => True) A')
    (next : ∀ r vs, vs.length = arguments.length → Keeps K A₁ (f r vs) (fun _ => True) A') :
    Keeps K A (do
      let r ← p.watch fuel receiver
      let vs ← arguments.mapM (p.watch fuel)
      f r vs) (fun _ => True) A' := by
  rw [List.forall_mem_cons] at each
  cases definite with
  | cons first rest =>
    exact keeps_bind (each.1 _ _ first) fun r _ =>
      keeps_bind (keeps_mapM rest each.2) fun vs length => next r vs length

theorem keeps_sequence {es : List Expr} (definite : DefiniteInOrder A es A')
    (each : ∀ d ∈ es, ∀ A A', d.Definite A A' →
      Keeps K A (p.watch fuel d) (fun _ => True) A') (last : Value) :
    Keeps K A (watchSequence (p.watch fuel) last es) (fun _ => True) A' := by
  induction es generalizing A last with
  | nil =>
    cases definite with
    | nil after => exact keeps_pure trivial after
  | cons e es ih =>
    cases definite with
    | cons first rest =>
      exact keeps_bind (each e List.mem_cons_self _ _ first) fun v _ =>
        ih rest (fun d member => each d (List.mem_cons_of_mem _ member)) v

/-- When a method starts, all its slots but `self` and its parameters are nil. -/
theorem entrySlots_nil (m : Method) (receiver : Value) (arguments : List Value) {s : SlotId}
    (free : s ∉ m.entryAssigned arguments) :
    (m.entrySlots receiver arguments).getD s.val .nil = .nil := by
  simp only [Method.entryAssigned, List.mem_cons, not_or] at free
  have blank : Machine.slot ⟨Array.replicate m.locals.length .nil, #[], [], []⟩ s = .nil := by
    rw [Machine.slot, Array.getD_eq_getD_getElem?, Array.getElem?_replicate]
    split <;> rfl
  have bound := Machine.slot_bindSlots
    (Machine.setSlot ⟨Array.replicate m.locals.length .nil, #[], [], []⟩ m.selfSlot receiver) free.2
  rw [Machine.slot_setSlot, if_neg free.1, blank] at bound
  exact bound

/-- What holds before a round holds after it, and a break keeps what is assigned after the loop. -/
theorem keeps_while {ty : Option Ty} {id : LoopId} {condition body : Expr} {A₁ A₂ : SlotSet}
    (again : Keeps K A (p.watch fuel ⟨ty, .while id condition body⟩) (fun _ => True) A')
    (tested : Keeps (fun s => K s ∨ A s) A (p.watch fuel condition) (fun _ => True) A₁)
    (ran : Keeps (fun s => (K s ∨ A s) ∨ A' s) A₁ (p.watch fuel body) (fun _ => True) A₂)
    (after : ∀ s, A' s → A₁ s) :
    Keeps K A (p.watchNode (p.watch fuel) ⟨ty, .while id condition body⟩) (fun _ => True) A' := by
  have both {w : Watch} {B C : SlotSet} (first : w.Has B) (second : w.Has C) :
      w.Has fun s => B s ∨ C s := fun s inside => inside.elim (first s) (second s)
  have later {w : Watch} (keep : w.Has fun s => K s ∨ A s) (has : w.Has A₁) :
      w.Has fun s => (K s ∨ A s) ∨ A' s := both keep fun s inside => has s (after s inside)
  constructor
  · intro w v w' clean keep has h
    cases Program.watched_while_ends h with
    | fails test _ =>
      obtain ⟨clean₁, keep₁, has₁, -⟩ := tested.returns _ _ _ clean (both keep has) has test
      exact ⟨clean₁, fun s inside => keep₁ s (.inl inside), fun s inside => has₁ s (after s inside),
        trivial⟩
    | round test _ round goes =>
      obtain ⟨clean₁, keep₁, has₁, -⟩ := tested.returns _ _ _ clean (both keep has) has test
      obtain ⟨clean₂, keep₂, -⟩ := ran.returns _ _ _ clean₁ (later keep₁ has₁) has₁ round
      exact again.returns _ _ _ clean₂ (fun s inside => keep₂ s (.inl (.inl inside)))
        (fun s inside => keep₂ s (.inl (.inr inside))) goes
    | breaks test _ left =>
      obtain ⟨clean₁, keep₁, has₁, -⟩ := tested.returns _ _ _ clean (both keep has) has test
      obtain ⟨clean₂, keep₂⟩ := ran.stops _ _ _ clean₁ (later keep₁ has₁) has₁ left
      exact ⟨clean₂, fun s inside => keep₂ s (.inl (.inl inside)), fun s inside => keep₂ s (.inr inside),
        trivial⟩
  · intro w stop w' clean keep has h
    cases Program.watched_while_ends h with
    | untested stopped =>
      obtain ⟨clean₁, keep₁⟩ := tested.stops _ _ _ clean (both keep has) has stopped
      exact ⟨clean₁, fun s inside => keep₁ s (.inl inside)⟩
    | round test _ round goes =>
      obtain ⟨clean₁, keep₁, has₁, -⟩ := tested.returns _ _ _ clean (both keep has) has test
      obtain ⟨clean₂, keep₂, -⟩ := ran.returns _ _ _ clean₁ (later keep₁ has₁) has₁ round
      exact again.stops _ _ _ clean₂ (fun s inside => keep₂ s (.inl (.inl inside)))
        (fun s inside => keep₂ s (.inl (.inr inside))) goes
    | stops test _ stopped _ =>
      obtain ⟨clean₁, keep₁, has₁, -⟩ := tested.returns _ _ _ clean (both keep has) has test
      obtain ⟨clean₂, keep₂⟩ := ran.stops _ _ _ clean₁ (later keep₁ has₁) has₁ stopped
      exact ⟨clean₂, fun s inside => keep₂ s (.inl (.inl inside))⟩

section Entries

variable {receiver : Value} {vs : List Value}

/-- Entering an expanded method assigns its `self` and the parameters that get a value. -/
theorem keeps_enterCall {c : ExpandedCall} (length : vs.length = c.arguments.length)
    (kept : ∀ s, K s → s ∉ c.locals) (fresh : ∀ s, A s → s ∉ c.locals) :
    Keeps K A (Watched.bind
        (fun m => ((m.clearSlots c.locals).setSlot c.selfSlot receiver).bindSlots c.parameters vs)
        (c.selfSlot :: boundSlots c.parameters vs ++ withoutSlots c.locals ·)) (fun _ => True)
      fun s => s = c.selfSlot ∨ s ∈ boundSlots c.parameters c.arguments ∨ A s := by
  refine keeps_change _ (fun w clean s free => ?_) (fun l s keep member => ?_) fun l has s bound => ?_
  · simp only [List.cons_append, List.mem_cons, List.mem_append, mem_withoutSlots,
      not_or, not_and, Classical.not_not] at free
    rw [Machine.slot_bindSlots _ free.2.1, Machine.slot_setSlot, if_neg free.1,
      Machine.slot_clearSlots]
    split
    · rfl
    · rename_i outside
      exact clean.unassigned s fun assigned => outside (free.2.2 assigned)
  · simp [mem_withoutSlots, member, kept s keep]
  · rw [boundSlots_length c.parameters length.symm] at bound
    rcases bound with rfl | bound | before
    · simp
    · simp [bound]
    · simp [mem_withoutSlots, has s before, fresh s before]

/-- Entering a block assigns the parameters that get a value. -/
theorem keeps_enterBlock {parameters locals : List SlotId} {arguments : List Expr}
    (length : vs.length = arguments.length)
    (kept : ∀ s, K s → s ∉ locals ++ parameters.drop arguments.length)
    (fresh : ∀ s, A s → s ∉ locals ++ parameters.drop arguments.length) :
    Keeps K A (Watched.bind (fun m => (m.clearSlots locals).bindOrClear parameters vs)
        fun assigned => withoutSlots (parameters.drop vs.length)
          (boundSlots parameters vs ++ withoutSlots locals assigned)) (fun _ => True)
      fun s => (s ∈ boundSlots parameters arguments ∧ s ∉ parameters.drop arguments.length) ∨ A s := by
  rw [← length] at kept fresh ⊢
  rw [boundSlots_length parameters length.symm]
  refine keeps_change _ (fun w clean s free => ?_) (fun l s keep member => ?_) fun l has s bound => ?_
  · obtain ⟨emptied, same⟩ := Machine.slot_bindOrClear (w.machine.clearSlots locals)
      parameters vs (x := s)
    by_cases missing : s ∈ parameters.drop vs.length
    · exact emptied missing
    · simp only [mem_withoutSlots, List.mem_append, not_and, Classical.not_not] at free
      have free : ¬ (s ∈ boundSlots parameters vs ∨ s ∈ w.assigned ∧ s ∉ locals) :=
        fun bound => missing (free bound)
      rw [not_or, not_and, Classical.not_not] at free
      rw [same missing free.1, Machine.slot_clearSlots]
      split
      · rfl
      · rename_i outside
        exact clean.unassigned s fun assigned => outside (free.2 assigned)
  · have outside := kept s keep
    rw [List.mem_append, not_or] at outside
    simp [mem_withoutSlots, member, outside]
  · rcases bound with bound | before
    · simp [mem_withoutSlots, bound]
    · have outside := fresh s before
      rw [List.mem_append, not_or] at outside
      simp [mem_withoutSlots, has s before, outside]

/-- The slots for the operands of a dispatch are assigned before an arm is chosen. -/
theorem keeps_bindTemps {temps : List SlotId} {scrutinees : List Expr}
    (length : vs.length = scrutinees.length) :
    Keeps K A (Watched.bind (·.bindSlots temps vs) (boundSlots temps vs ++ ·)) (fun _ => True)
      fun s => s ∈ boundSlots temps scrutinees ∨ A s := by
  refine keeps_change _ (fun w clean s free => ?_) (fun l s _ => List.mem_append_right _)
    fun l has s bound => ?_
  · rw [List.mem_append, not_or] at free
    rw [Machine.slot_bindSlots _ free.1]
    exact clean.unassigned s free.2
  · rw [boundSlots_length temps length.symm] at bound
    exact List.mem_append.2 (bound.imp_right (has s))

end Entries

section Ends

variable (program : p.WellTyped globals constants) (whole : p.Scoped)

include program whole

theorem watch_ends (within : p.Within e) (fuel : Nat) : e.Ends (p.eval fuel e) := by
  obtain ⟨m, member, inside⟩ := within
  obtain ⟨Γ, typed⟩ := (program.method member).body.inside inside
  exact eval_ends whole program typed fuel

theorem watch_typed (within : p.Within e) {w w' : Watch} {v : Value}
    (run : p.watch fuel e w = .ok v w') : e.ty.isSome := by
  have plain := watch_erases p fuel e w
  rw [run] at plain
  exact (watch_ends program whole within fuel).returns _ _ _ plain.symm

theorem watch_leaves (within : p.Within e) {w w' : Watch} {x : Exit}
    (run : p.watch fuel e w = .error (.exit x) w') : ∃ t, e.Leaves x.target t := by
  have plain := watch_erases p fuel e w
  rw [run] at plain
  exact (watch_ends program whole within fuel).leaves _ _ _ plain.symm

end Ends

section Nodes

variable {ty : Option Ty} {d : Expr} {A₁ : SlotSet}
  (inner : ∀ (K A A' : SlotSet) (d : Expr), p.Within d → d.Definite A A' →
    (∀ s, K s → ¬ d.Empties s) → Keeps K A (p.watch fuel d) (fun _ => True) A')

include inner

/-- The parts of an expression keep what the expression is to keep. -/
theorem keeps_part (within : p.Within e) (kept : ∀ s, K s → ¬ e.Empties s) (member : d ∈ e.node.parts)
    (definite : d.Definite A A') : Keeps K A (p.watch fuel d) (fun _ => True) A' :=
  inner K A A' d (within.part member) definite fun s keep empties => kept s keep (empties.part member)

theorem keeps_parts (within : p.Within e) (kept : ∀ s, K s → ¬ e.Empties s) {es : List Expr}
    (all : es ⊆ e.node.operands) :
    ∀ d ∈ es, ∀ A A', d.Definite A A' → Keeps K A (p.watch fuel d) (fun _ => True) A' :=
  fun _ member _ _ => keeps_part inner within kept (List.mem_append_left _ (all member))

/-- A part that may be skipped only has to keep what counts after it. -/
theorem keeps_skippable (within : p.Within e) (kept : ∀ s, K s → ¬ e.Empties s)
    (member : d ∈ e.node.parts) (definite : d.Definite A A₁)
    (after : ∀ s, A' s → A s ∧ ¬ d.Empties s) : Keeps K A (p.watch fuel d) (fun _ => True) A' := by
  refine (inner (fun s => K s ∨ A' s) _ _ d (within.part member) definite fun s keep empties =>
    ?_).fewer (fun _ => .inl) (fun s keep => keep.imp_right fun later => (after s later).1)
    fun _ later => .inl (.inr later)
  exact keep.elim (fun keep => kept s keep (empties.part member))
    fun later => (after s later).2 empties

variable {A₂ : SlotSet}

theorem keeps_assign {s : SlotId} {value : Expr} (within : p.Within ⟨ty, .assign s value⟩)
    (kept : ∀ x, K x → ¬ Expr.Empties ⟨ty, .assign s value⟩ x) (assigned : value.Definite A A₁)
    (after : ∀ x, A' x → x = s ∨ A₁ x) :
    Keeps K A (p.watchNode (p.watch fuel) ⟨ty, .assign s value⟩) (fun _ => True) A' := by
  refine keeps_bind (keeps_part inner within kept List.mem_cons_self assigned) fun v _ =>
    keeps_bind (keeps_change A' (fun w clean x free => ?_)
      (fun l x _ => List.mem_cons_of_mem _) fun l has x inside => ?_) fun _ _ =>
        keeps_pure trivial fun _ => id
  · rw [List.mem_cons, not_or] at free
    rw [Machine.slot_setSlot, if_neg free.1]
    exact clean.unassigned x free.2
  · rcases after x inside with rfl | before
    · exact List.mem_cons_self
    · exact List.mem_cons_of_mem _ (has x before)

theorem keeps_loop {id : LoopId} {condition body : Expr}
    (within : p.Within ⟨ty, .while id condition body⟩)
    (kept : ∀ s, K s → ¬ Expr.Empties ⟨ty, .while id condition body⟩ s)
    (test : condition.Definite A A₁) (round : body.Definite A₁ A₂)
    (unemptied : ∀ s, A s → ¬ condition.Empties s ∧ ¬ body.Empties s)
    (after : ∀ s, A' s → A₁ s ∧ ¬ body.Empties s) :
    Keeps K A (p.watchNode (p.watch fuel) ⟨ty, .while id condition body⟩) (fun _ => True) A' := by
  have parts : condition ∈ (Node.while id condition body).parts ∧
      body ∈ (Node.while id condition body).parts := by
    simp [Node.parts, Node.operands, Node.landing?]
  refine keeps_while (inner K A A' _ within (.while test round unemptied after) kept)
    (inner _ _ _ condition (within.part parts.1) test fun s keep empties => ?_)
    (inner _ _ _ body (within.part parts.2) round fun s keep empties => ?_)
    fun s inside => (after s inside).1
  · exact keep.elim (fun keep => kept s keep (empties.part parts.1))
      fun before => (unemptied s before).1 empties
  · rcases keep with (keep | before) | later
    · exact kept s keep (empties.part parts.2)
    · exact (unemptied s before).2 empties
    · exact (after s later).2 empties

theorem keeps_and {left right : Expr} (within : p.Within ⟨ty, .and left right⟩)
    (kept : ∀ s, K s → ¬ Expr.Empties ⟨ty, .and left right⟩ s) (first : left.Definite A A₁)
    (second : right.Definite A₁ A₂) (after : ∀ s, A' s → A₁ s ∧ ¬ right.Empties s) :
    Keeps K A (p.watchNode (p.watch fuel) ⟨ty, .and left right⟩) (fun _ => True) A' := by
  refine keeps_bind (keeps_part inner within kept (by simp [Node.parts, Node.operands]) first)
    fun v _ => ?_
  split
  · exact keeps_skippable inner within kept (by simp [Node.parts, Node.operands]) second after
  · exact keeps_pure trivial fun s inside => (after s inside).1

theorem keeps_or {left right : Expr} (within : p.Within ⟨ty, .or left right⟩)
    (kept : ∀ s, K s → ¬ Expr.Empties ⟨ty, .or left right⟩ s) (first : left.Definite A A₁)
    (second : right.Definite A₁ A₂) (after : ∀ s, A' s → A₁ s ∧ ¬ right.Empties s) :
    Keeps K A (p.watchNode (p.watch fuel) ⟨ty, .or left right⟩) (fun _ => True) A' := by
  refine keeps_bind (keeps_part inner within kept (by simp [Node.parts, Node.operands]) first)
    fun v _ => ?_
  split
  · exact keeps_pure trivial fun s inside => (after s inside).1
  · exact keeps_skippable inner within kept (by simp [Node.parts, Node.operands]) second after

theorem keeps_yield {parameters locals : List SlotId} {arguments : List Expr} {body : Expr}
    (within : p.Within ⟨ty, .yield parameters locals arguments body⟩)
    (kept : ∀ s, K s → ¬ Expr.Empties ⟨ty, .yield parameters locals arguments body⟩ s)
    (operands : DefiniteInOrder A arguments A₁)
    (fresh : ∀ s, A₁ s → s ∉ locals ++ parameters.drop arguments.length)
    (body' : body.Definite (fun s => (s ∈ boundSlots parameters arguments ∧
      s ∉ parameters.drop arguments.length) ∨ A₁ s) A₂) (after : ∀ s, A' s → A₂ s) :
    Keeps K A (p.watchNode (p.watch fuel) ⟨ty, .yield parameters locals arguments body⟩)
      (fun _ => True) A' :=
  keeps_bind (keeps_mapM operands (keeps_parts inner within kept (List.subset_append_left _ _)))
    fun vs length => keeps_bind (keeps_enterBlock length
      (fun s keep emptied => kept s keep ⟨_, .self _, emptied⟩) fresh) fun _ _ =>
        (keeps_part inner within kept (by simp [Node.parts, Node.operands]) body').weaken
          fun _ _ _ _ => after

section Calls

variable (methods : ∀ m ∈ p.allMethods, m.Definite)

include methods

/-- The body of a method, from where only `self` and the parameters are assigned. -/
theorem keeps_methodBody {m : Method} (member : m ∈ p.allMethods) :
    Keeps (fun _ => False) (fun s => s = m.selfSlot ∨ s ∈ m.parameters)
      (Watched.landing (Exit.landInFrame m.frame) (p.watch fuel m.body)) (fun _ => True)
      fun _ => False := by
  obtain ⟨A₁, definite⟩ := methods m member
  have body := inner (fun _ => False) _ _ m.body ⟨m, member, .self _⟩ definite nofun
  exact keeps_landing (body.weaken fun _ _ _ _ _ => False.elim) (fun _ => id) (fun _ => .inl) nofun

theorem keeps_method {m : Method} (member : m ∈ p.allMethods) {arguments : List Value}
    (arity : m.parameters.length ≤ arguments.length) (receiver : Value) (after : ∀ s, A' s → A s) :
    Keeps K A (m.watch (p.watch fuel) receiver arguments) (fun _ => True) A' := by
  refine keeps_inFrame (keeps_methodBody inner methods member)
    (fun s free => entrySlots_nil m receiver arguments free) (fun s inside => ?_) after
  rw [Method.entryAssigned, boundSlots_all arity, List.mem_cons]
  exact inside

theorem keeps_ordered (whole : p.Scoped) {node : Node} {es : List Expr}
    (within : p.Within ⟨ty, node⟩) (kept : ∀ s, K s → ¬ Expr.Empties ⟨ty, node⟩ s)
    (parts : node.ordered? = some es) (definite : DefiniteInOrder A es A') :
    Keeps K A (p.watchNode (p.watch fuel) ⟨ty, node⟩) (fun _ => True) A' := by
  have each {es : List Expr} (all : es ⊆ node.operands) :
      ∀ d ∈ es, ∀ A A', d.Definite A A' → Keeps K A (p.watch fuel d) (fun _ => True) A' :=
    keeps_parts inner within kept all
  cases node with
  | literal _ | classRef _ | mainObject =>
    cases parts
    cases definite with
    | nil after => exact keeps_pure trivial after
  | instanceVar object name =>
    cases parts
    cases definite with
    | nil after => exact keeps_read (fun w => w.machine.instanceVar (w.machine.slot object) name) after
  | global name =>
    cases parts
    cases definite with
    | nil after => exact keeps_read (fun w => w.machine.global name) after
  | constant name =>
    cases parts
    cases definite with
    | nil after => exact keeps_read (fun w => w.machine.constant name) after
  | assignInstanceVar _ _ value | assignGlobal _ value | assignConstant _ value =>
    cases parts
    refine keeps_operand definite (each (List.Subset.refl _) _ List.mem_cons_self) fun v =>
      keeps_bind (keeps_lift ?_ (by rintro _ _ _ ⟨⟩) fun _ => id) fun _ _ =>
        keeps_pure trivial fun _ => id
    intro m a m' h
    cases h
    first | rfl | exact Machine.setInstanceVar_slots ..
  | not operand =>
    cases parts
    exact keeps_operand definite (each (List.Subset.refl _) _ List.mem_cons_self) fun v =>
      keeps_pure trivial fun _ => id
  | «return» _ value | «break» _ value =>
    cases parts
    exact keeps_operand definite (each (List.Subset.refl _) _ List.mem_cons_self) fun v =>
      keeps_throw _
  | sequence parts' =>
    cases parts
    exact keeps_sequence definite (each (List.Subset.refl _)) _
  | call method receiver arguments =>
    obtain ⟨m, member, parameters, present⟩ := within.callee whole fun τ inScope => inScope.1
    cases parts
    refine keeps_send definite (each (List.Subset.refl _)) fun r vs length => ?_
    rw [present, pure_bind]
    exact keeps_method inner methods member (by omega) r fun _ => id
  | primitive operation receiver arguments =>
    cases parts
    refine keeps_send definite (each (List.Subset.refl _)) fun r vs length =>
      keeps_lift ?_ ?_ fun _ => id
    all_goals
      intro m _ m' h
      cases result : operation.apply r vs <;> rw [result] at h <;> cases h
      rfl
  | construct className initializer arguments =>
    cases parts
    refine keeps_bind (keeps_mapM definite (each (List.Subset.refl _))) fun vs length =>
      keeps_bind (keeps_lift ?_ (by rintro _ _ _ ⟨⟩) fun _ => id) fun object _ => ?_
    · intro m a m' h
      cases h
      rfl
    · cases initializer with
      | none => exact keeps_pure trivial fun _ => id
      | some method =>
        obtain ⟨m, member, parameters, present⟩ :=
          within.callee whole fun τ inScope => inScope.1 method rfl
        dsimp only
        rw [present, pure_bind]
        exact keeps_bind (keeps_method inner methods member (by omega) object fun _ => id)
          fun _ _ => keeps_pure trivial fun _ => id
  | foreign lib name arguments =>
    cases parts
    refine keeps_bind (keeps_mapM definite (each (List.Subset.refl _))) fun vs length =>
      keeps_lift (by rintro _ _ _ ⟨⟩) ?_ fun _ => id
    intro m stop m' h
    cases h
    rfl
  | _ => cases parts

end Calls

variable (program : p.WellTyped globals constants) (whole : p.Scoped)

include program whole

theorem keeps_conditional {A₃ : SlotSet} {condition consequent alternative : Expr}
    (within : p.Within ⟨ty, .conditional condition consequent alternative⟩)
    (kept : ∀ s, K s → ¬ Expr.Empties ⟨ty, .conditional condition consequent alternative⟩ s)
    (test : condition.Definite A A₁) (yes : consequent.Definite A₁ A₂)
    (no : alternative.Definite A₁ A₃) (first : consequent.ty.isSome → ∀ s, A' s → A₂ s)
    (second : alternative.ty.isSome → ∀ s, A' s → A₃ s) :
    Keeps K A (p.watchNode (p.watch fuel) ⟨ty, .conditional condition consequent alternative⟩)
      (fun _ => True) A' := by
  have part {d : Expr} (member : d ∈ [condition, consequent, alternative]) :
      d ∈ (Node.conditional condition consequent alternative).parts :=
    List.mem_append_left _ member
  refine keeps_bind (keeps_part inner within kept (part (by simp)) test) fun v _ => ?_
  split
  · exact (keeps_part inner within kept (part (by simp)) yes).weaken fun w a w' run =>
      first (watch_typed program whole (within.part (part (by simp))) run)
  · exact (keeps_part inner within kept (part (by simp)) no).weaken fun w a w' run =>
      second (watch_typed program whole (within.part (part (by simp))) run)

omit inner in
/-- An exit lands at an expanded method only if the call is left early. -/
theorem leaves_early {c : ExpandedCall} {w w' : Watch} {x : Exit} {v : Value}
    (within : p.Within ⟨ty, .inline c⟩)
    (left : p.watch fuel c.body w = .error (.exit x) w')
    (lands : Exit.landAtCall c.frame c.site x = some v) :
    c.returnType.isSome ∨ c.breakType.isSome := by
  have part : p.Within c.body := within.part (by simp [Node.parts, Node.landing?])
  obtain ⟨m, there, inside⟩ := within
  obtain ⟨Γ, ⟨-, -, returns, breaks, -⟩, -⟩ := (program.method there).body.inside inside
  obtain ⟨t, leaves⟩ := watch_leaves program whole part left
  obtain ⟨own | own, -⟩ := Exit.landAtCall_some lands
  · obtain ⟨u, some, -⟩ := returns t (own ▸ leaves)
    exact .inl (some ▸ rfl)
  · obtain ⟨u, some, -⟩ := breaks t (own ▸ leaves)
    exact .inr (some ▸ rfl)

theorem keeps_inline {c : ExpandedCall} (within : p.Within ⟨ty, .inline c⟩)
    (kept : ∀ s, K s → ¬ Expr.Empties ⟨ty, .inline c⟩ s)
    (operands : DefiniteInOrder A (c.receiver :: c.arguments) A₁) (fresh : ∀ s, A₁ s → s ∉ c.locals)
    (body : c.body.Definite (fun s => s = c.selfSlot ∨ s ∈ boundSlots c.parameters c.arguments ∨
      A₁ s) A₂)
    (early : c.returnType.isSome ∨ c.breakType.isSome → ∀ s, A' s → A₁ s ∧ ¬ c.body.Empties s)
    (after : c.body.ty.isSome → ∀ s, A' s → A₂ s) :
    Keeps K A (p.watchNode (p.watch fuel) ⟨ty, .inline c⟩) (fun _ => True) A' := by
  have member : c.body ∈ (Node.inline c).parts := by simp [Node.parts, Node.landing?]
  refine keeps_send operands (keeps_parts inner within kept (List.Subset.refl _))
    fun r vs length => keeps_bind (keeps_enterCall length
      (fun s keep emptied => kept s keep ⟨_, .self _, emptied⟩) fresh) fun _ _ => ?_
  -- What is assigned after an early exit has been assigned before the call.
  have body' := inner (fun s => K s ∨ (A₁ s ∧ ¬ c.body.Empties s)) _ _ _ (within.part member)
    body fun s keep empties => keep.elim (fun keep => kept s keep (empties.part member))
      fun before => before.2 empties
  refine keeps_landing (body'.weaken fun w a w' run => after
    (watch_typed program whole (within.part member) run)) (fun _ => .inl) (fun s keep =>
      keep.imp_right fun before => .inr (.inr before.1)) fun w x w' v left lands s later => ?_
  exact .inr (early (leaves_early program whole within left lands) s later)

theorem keeps_dispatch {scrutinees : List Expr} {temps : List SlotId} {arms : List Arm}
    {ends : Arm → SlotSet} (within : p.Within ⟨ty, .dispatch scrutinees temps arms⟩)
    (kept : ∀ s, K s → ¬ Expr.Empties ⟨ty, .dispatch scrutinees temps arms⟩ s)
    (operands : DefiniteInOrder A scrutinees A₁)
    (bodies : ∀ arm ∈ arms,
      arm.body.Definite (fun s => s ∈ boundSlots temps scrutinees ∨ A₁ s) (ends arm))
    (after : ∀ arm ∈ arms, arm.body.ty.isSome → ∀ s, A' s → ends arm s) :
    Keeps K A (p.watchNode (p.watch fuel) ⟨ty, .dispatch scrutinees temps arms⟩) (fun _ => True)
      A' := by
  refine keeps_bind (keeps_mapM operands (keeps_parts inner within kept
    (List.subset_append_left _ _))) fun vs length =>
      keeps_bind (keeps_bindTemps length) fun _ _ => ?_
  split
  · rename_i arm found
    have member := List.mem_of_find?_eq_some found
    have direct : arm.body ∈ (Node.dispatch scrutinees temps arms).parts :=
      List.mem_append_left _ (List.mem_append_right _ (List.mem_map_of_mem member))
    exact (keeps_part inner within kept direct (bodies arm member)).weaken fun w a w' run =>
      after arm member (watch_typed program whole (within.part direct) run)
  · refine (keeps_lift (by rintro _ _ _ ⟨⟩) (fun m stop m' h => ?_) fun _ => id).weaken
      fun _ _ _ impossible => by cases impossible
    cases h
    rfl

/-- One step of evaluation keeps what the rules promise if the evaluation of the parts does. -/
theorem watchNode_keeps (methods : ∀ m ∈ p.allMethods, m.Definite) (within : p.Within e)
    (definite : e.Definite A A') (kept : ∀ s, K s → ¬ e.Empties s) :
    Keeps K A (p.watchNode (p.watch fuel) e) (fun _ => True) A' := by
  cases definite with
  | @slot _ _ ty s read after => exact keeps_read (fun w => w.machine.slot s) after
  | ordered parts definite => exact keeps_ordered inner methods whole within kept parts definite
  | assign assigned after => exact keeps_assign inner within kept assigned after
  | conditional test yes no first second =>
    exact keeps_conditional inner program whole within kept test yes no first second
  | «while» test round unemptied after =>
    exact keeps_loop inner within kept test round unemptied after
  | and first second after => exact keeps_and inner within kept first second after
  | or first second after => exact keeps_or inner within kept first second after
  | inline operands fresh body early after =>
    exact keeps_inline inner program whole within kept operands fresh body early after
  | yield operands fresh body after => exact keeps_yield inner within kept operands fresh body after
  | dispatch operands bodies after =>
    exact keeps_dispatch inner program whole within kept operands bodies after

end Nodes

/-- A value of no slot can be noted. -/
theorem keeps_note {v : Value} (other : ∀ s, e.node ≠ .slot s) :
    Keeps K A (do Watched.note e v; return v) (fun _ => True) A where
  returns w _ _ clean keep has h := by
    cases h
    refine ⟨⟨clean.unassigned, List.forall_mem_cons.2 ⟨fun s node => ?_, clean.events⟩⟩, keep, has,
      trivial⟩
    exact absurd node (other s)
  stops _ _ _ _ _ _ h := by cases h

/-- A slot that is read is assigned, or the type of the read has nil. -/
theorem keeps_slot {ty : Option Ty} {s : SlotId} (read : A s ∨ ∃ t, ty = some t ∧ Ty.nil ≤ t)
    (after : ∀ x, A' x → A x) :
    Keeps K A (p.watch (fuel + 1) ⟨ty, .slot s⟩) (fun _ => True) A' where
  returns w _ _ clean keep has h := by
    cases h
    refine ⟨⟨clean.unassigned, List.forall_mem_cons.2 ⟨fun x node free => ?_, clean.events⟩⟩, keep,
      fun x inside => has x (after x inside), trivial⟩
    cases node
    exact ⟨clean.unassigned s free, read.resolve_left fun assigned => free (has s assigned)⟩
  stops _ _ _ _ _ _ h := by cases h

section Runs

variable (program : p.WellTyped globals constants) (whole : p.Scoped)
  (methods : ∀ m ∈ p.allMethods, m.Definite)

include program whole methods

/-- Evaluation keeps what the rules of definite assignment promise. -/
theorem watch_keeps (within : p.Within e) (definite : e.Definite A A')
    (kept : ∀ s, K s → ¬ e.Empties s) (fuel : Nat) :
    Keeps K A (p.watch fuel e) (fun _ => True) A' := by
  induction fuel generalizing K A A' e with
  | zero => exact keeps_throw _
  | succ fuel ih =>
    by_cases slot : ∃ s, e.node = .slot s
    · obtain ⟨s, node⟩ := slot
      rcases e with ⟨ty, node'⟩
      cases node
      cases definite with
      | slot read after => exact keeps_slot read after
      | ordered parts => cases parts
    · exact keeps_bind (watchNode_keeps (fun K A A' d => ih) program whole methods within
        definite kept) fun v _ => keeps_note fun s node => slot ⟨s, node⟩

/-- All reads of a run are sound, whatever earlier runs have left behind. -/
theorem watchFrom_sound (noParameters : p.main.parameters = []) (fuel : Nat) (m : Machine) :
    ∀ ev ∈ (p.watchFrom fuel m).2.events, ev.Sound := by
  have body := keeps_methodBody (fun K A A' d within definite kept =>
    watch_keeps program whole methods within definite kept fuel) methods (m := p.main) List.mem_cons_self
  have start : Watch.Clean ⟨{ m with slots := p.main.entrySlots .main [] },
      p.main.entryAssigned [], []⟩ :=
    ⟨fun s free => entrySlots_nil p.main .main [] free, (by rintro _ ⟨⟩)⟩
  have bound : Watch.Has ⟨{ m with slots := p.main.entrySlots .main [] },
      p.main.entryAssigned [], []⟩ fun s => s = p.main.selfSlot ∨ s ∈ p.main.parameters := by
    intro s inside
    rw [noParameters] at inside
    exact List.mem_cons.2 (inside.imp_right (by rintro ⟨⟩))
  simp only [Program.watchFrom, Method.watch, Watched.inFrame]
  cases run : Watched.landing (Exit.landInFrame p.main.frame) (p.watch fuel p.main.body)
      ⟨{ m with slots := p.main.entrySlots .main [] }, p.main.entryAssigned [], []⟩ with
  | ok v w => exact (body.returns _ _ _ start (by rintro _ ⟨⟩) bound run).1.events
  | error stop w =>
    have clean := (body.stops _ _ _ start (by rintro _ ⟨⟩) bound run).1.events
    rcases stop with (_ | _) | _ | _ <;> exact clean

end Runs

end Programs

end Typed

end TypedBlocks

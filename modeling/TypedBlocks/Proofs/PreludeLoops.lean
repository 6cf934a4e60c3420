import TypedBlocks.Proofs.IsolatedBlocks
import TypedBlocks.Proofs.LiveCode
import TypedBlocks.Proofs.PreludeMethods

/-!
# The loops of the prelude

Where the methods of the prelude are expanded for integers, they run their block for consecutive integers
and give the receiver, whatever else the block does. Only a count up to the largest integer never ends, as
its successor is the smallest one.
-/
namespace TypedBlocks

namespace PreludeLoop

open Typed (CountingLoop ExpandedCall)

variable {k : PreludeLoop}

theorem compares {d : Definitions} (listed : k ∈ all) (spares : ∀ name ∈ operators, d.Spares name) :
    d.Compares k.order k.operation := by
  simp only [all, List.mem_cons, List.not_mem_nil, or_false] at listed
  rcases listed with rfl | rfl <;> exact ⟨spares _ (by decide), by decide, fun _ _ => rfl⟩

/-- The body of the call is the loop. Where it is entered with integers, it starts with those that the
loop wants. -/
def Expands (k : PreludeLoop) (p : Typed.Program) (c : ExpandedCall) (loop : CountingLoop) : Prop :=
  ∃ first y, loop.Drives p k.operation c first y ∧
    ∀ a bs m, bs.length = k.parameters.length →
      let m' := c.entered (.int a) (bs.map .int) m
      m'.slot c.selfSlot = .int a ∧ m'.slot y = .int (k.value a bs k.bound) ∧
        p.Returns first m' (.int (k.value a bs k.start)) m'

namespace Expands

variable {p : Typed.Program} {e : Typed.Expr} {c : ExpandedCall} {loop : CountingLoop} {n : Nat}
  (expands : k.Expands p c loop)

include expands

theorem yields : loop.YieldedBy c.body := by
  obtain ⟨first, y, drives, -⟩ := expands
  exact drives.body.yields

variable (node : e.node = .inline c) (a : Int64) (bs : List Int64)
  (size : bs.length = k.parameters.length)

include node size

theorem iterates (passes : k.operation.Passes (k.value a bs k.bound) (k.value a bs k.start) n) :
    loop.Iterates p (k.value a bs k.bound) e c a bs (k.value a bs k.start) n := by
  obtain ⟨first, y, drives, entered⟩ := expands
  exact drives.iterates node (fun m => entered a bs m size) passes

theorem neverEnds (passes : ∀ x, k.operation.compareInts x (k.value a bs k.bound) = true) :
    loop.NeverEnds p (k.value a bs k.bound) e c a bs (k.value a bs k.start) := by
  obtain ⟨first, y, drives, entered⟩ := expands
  exact drives.neverEnds node (fun m => entered a bs m size) passes

end Expands

end PreludeLoop

namespace Inference

open Typed (SlotId CountingLoop ExpandedCall)
open Pass

section Expansions

variable {cx : Setting} {k : PreludeLoop} {here : Place} {s s₁ s' : PassState} {path : ScopeChain}
  {self y : SlotId} {parameters : List SlotId}

/-- Where the parameters of a loop are bound, its start has a value and its bound is a slot of the
expansion. -/
structure BindsLoop (cx : Setting) (k : PreludeLoop) (here : Place) (s : PassState)
    (parameters : List SlotId) (value : Machine → Value) (y : SlotId) : Prop where
  starting : Posing cx here s k.start value
  bounding : Posing cx here s k.bound (·.slot y)
  held : y ∈ here.activation.selfSlot :: parameters
  named : ∃ name, name ≠ "i" ∧ s.frame.find? ⟨here.activation.path, name⟩ = some y
  values : ∀ a bs (m : Machine), bs.length = k.parameters.length →
    let m' := (m.setSlot here.activation.selfSlot (.int a)).bindSlots parameters (bs.map .int)
    m'.slot here.activation.selfSlot = .int a ∧ m'.slot y = .int (k.value a bs k.bound) ∧
      value m' = .int (k.value a bs k.start)

/-- Variables of one scope with different names have different slots. -/
theorem PassState.Known.find?_ne {x y : SlotId} {name name' : String} (known : s.Known cx .all)
    (scope : PathKnown cx .all cx.limits.maxInlineDepth path)
    (first : s.frame.find? ⟨path, name⟩ = some x) (second : s.frame.find? ⟨path, name'⟩ = some y)
    (names : name ≠ name') : x ≠ y := by
  rintro rfl
  have holds : s.frame.Holds cx x ⟨path, name⟩ := known.slots.find?_holds scope first
  have holds' : s.frame.Holds cx x ⟨path, name'⟩ := known.slots.find?_holds scope second
  exact names (congrArg VarKind.name (holds.unique holds'))

section Bindings

variable {ps : List Parameter} (integer : here.activation.selfType = Ty.int)
  (seated : s.frame.find? ⟨here.activation.path, "self"⟩ = some here.activation.selfSlot)

include integer seated

theorem bindVars_times (names : ps.map (·.name) = PreludeLoop.times.parameters)
    (bound : bindVars here.activation.path ps (ps.map fun _ => Ty.int) s = some (parameters, s₁)) :
    BindsLoop cx .times here s₁ parameters (fun _ => .int 0) here.activation.selfSlot := by
  obtain rfl : ps = [] := List.map_eq_nil_iff.1 names
  obtain ⟨rfl, rfl⟩ := pure_eq_some.1 bound
  refine ⟨posing_integer 0, posing_self integer, List.mem_cons_self, ⟨"self", by decide, seated⟩,
    fun a bs m size => ?_⟩
  have own : (m.setSlot here.activation.selfSlot (.int a)).slot here.activation.selfSlot = .int a := by
    rw [Machine.slot_setSlot, if_pos rfl]
  exact ⟨own, own, rfl⟩

theorem bindVars_upto {definer : BodyContext} {block : Block} {site : SiteId}
    (consistent : cx.definitions.Consistent) (place : here.Known cx .all) (known : s.Known cx .all)
    (origin : here.activation.origin = .expansion block site definer)
    (names : ps.map (·.name) = PreludeLoop.upto.parameters)
    (bound : bindVars here.activation.path ps (ps.map fun _ => Ty.int) s = some (parameters, s₁)) :
    ∃ y, BindsLoop cx .upto here s₁ parameters (·.slot here.activation.selfSlot) y := by
  obtain ⟨p, rfl, name⟩ : ∃ p : Parameter, ps = [p] ∧ p.name = "n" := List.map_eq_singleton_iff.1 names
  have own := BodyContext.scopeOf_expansion origin cx.captures "n"
  have scope : ScopeVar.Known cx .all ⟨here.activation.path, "n"⟩ := place.ownVar own
  have type : Ty.int.Known .all := .simple trivial
  have known₁ := known.bindVars scope (fun _ _ => trivial) (by simpa using type) bound
  have seated₁ := FrameSlots.find?_mono (bindVars_grows bound).labels seated
  obtain ⟨y, s₂, boundOne, rest⟩ := bind_eq_some.1 bound
  obtain ⟨_, _, nothing, rest⟩ := bind_eq_some.1 rest
  obtain ⟨rfl, rfl⟩ := pure_eq_some.1 nothing
  obtain ⟨rfl, rfl⟩ := pure_eq_some.1 rest
  rw [bindVar_run, name] at boundOne
  cases boundOne
  have found := FrameSlots.find?_slotFor (f := s.frame) scope.beq_self
  have apart := known₁.find?_ne scope seated₁ found (by decide)
  refine ⟨_, posing_self integer, posing_read consistent place known₁ own
    ⟨found, canHold_extended known scope type (Ty.Proper.simple _).le_refl⟩,
    List.mem_cons_of_mem _ List.mem_cons_self, ⟨"n", by decide, found⟩, fun a bs m size => ?_⟩
  obtain ⟨b, rfl⟩ := List.length_eq_one_iff.1 size
  have receiver : ((m.setSlot here.activation.selfSlot (.int a)).setSlot
      (s.frame.slotFor ⟨here.activation.path, "n"⟩).1 (.int b)).slot here.activation.selfSlot = .int a := by
    rw [Machine.slot_setSlot, if_neg apart, Machine.slot_setSlot, if_pos rfl]
  refine ⟨receiver, ?_, receiver⟩
  simp [Machine.bindSlots, Machine.slot_setSlot, PreludeLoop.value, PreludeLoop.upto]

theorem bindVars_loop {definer : BodyContext} {block : Block} {site : SiteId}
    (listed : k ∈ PreludeLoop.all) (consistent : cx.definitions.Consistent) (place : here.Known cx .all)
    (known : s.Known cx .all) (origin : here.activation.origin = .expansion block site definer)
    (names : ps.map (·.name) = k.parameters)
    (bound : bindVars here.activation.path ps (ps.map fun _ => Ty.int) s = some (parameters, s₁)) :
    ∃ value y, BindsLoop cx k here s₁ parameters value y := by
  simp only [PreludeLoop.all, List.mem_cons, List.not_mem_nil, or_false] at listed
  rcases listed with rfl | rfl
  · exact ⟨_, _, bindVars_times integer seated names bound⟩
  · obtain ⟨y, binds⟩ := bindVars_upto integer seated consistent place known origin names bound
    exact ⟨_, y, binds⟩

end Bindings

/-- The slot of a variable is among those of its scope. -/
theorem FrameSlots.Keyed.find?_within {f : FrameSlots} {name : String}
    (keyed : f.Keyed (ScopeVar.Known cx .all))
    (scope : PathKnown cx .all cx.limits.maxInlineDepth path) (found : f.find? ⟨path, name⟩ = some y) :
    y ∈ f.slotsWithin path := by
  obtain ⟨⟨slot, l⟩, here, rfl⟩ := Option.map_eq_some_iff.1 found
  have member := List.mem_of_find?_eq_some here
  have same : (l == some ⟨path, name⟩) = true := by simpa using List.find?_some here
  cases l with
  | none => cases same
  | some l =>
    have known := (keyed.keys _ member l rfl).1
    have kind : l.kind = ScopeVar.kind ⟨path, name⟩ :=
      (ScopeVar.beq_iff known.proper (PathKnown.proper scope)).1 same
    refine List.mem_map.2 ⟨_, List.mem_filter.2 ⟨member, ?_⟩, rfl⟩
    refine (isWithin_iff known.proper (PathKnown.proper scope)).2 ?_
    rw [show pathKind l.path = pathKind path from congrArg VarKind.path kind]

theorem find?_selfBound {f : FrameSlots} {t : Ty} (scope : ScopeVar.Known cx .all ⟨path, "self"⟩) :
    (selfBound f path t).2.find? ⟨path, "self"⟩ = some (selfBound f path t).1 :=
  FrameSlots.find?_mono (update_labels _ _ fun _ => ⟨rfl, rfl⟩) (FrameSlots.find?_slotFor scope.beq_self)

/-- Where a loop of the prelude is expanded for integers, it runs the block. -/
theorem expandCall_expands {p : Typed.Program} {fuel : Nat} {l : Elaborated} {call : CallSyntax}
    {m : MethodEntry} {key : Instantiation} {block : Block} {receiver : Typed.Expr}
    {arguments : List Typed.Expr} {c : ExpandedCall} (listed : k ∈ PreludeLoop.all)
    (describes : k.describes m.definition = true) (consistent : cx.definitions.Consistent)
    (spares : ∀ name ∈ PreludeLoop.operators, cx.definitions.Spares name) (place : here.Known cx .all)
    (known : s.Known cx .all) (callee : key.Known cx .all) (integer : key.selfType = Ty.int)
    (integers : key.arguments = m.parameters.map fun _ => Ty.int)
    (h : expandCall cx (elaborateExpr cx fuel) here call m key block receiver arguments s =
      some (l, s')) (sound : s'.errors = []) (node : l.code.node = .inline c)
    (isolated : ∀ ty parameters locals arguments body,
      Typed.Expr.Stays ⟨ty, .yield parameters locals arguments body⟩ c.body →
        (∀ m v m₁, p.Returns body m v m₁ → body.ty.isSome = true) ∧
          ∀ s ∈ c.slots, s ∉ parameters ++ locals ∧ ∀ fuel, Typed.Spares s (p.eval fuel body)) :
    ∃ loop, k.Expands p c loop := by
  rcases expandCall_steps h with ⟨-, -, failed⟩ | ⟨shallow, parameters, s₁, body, s₂, bound, run,
    rfl, rfl⟩
  · exact (no_failure sound failed).elim
  cases node
  simp only [PreludeLoop.describes, Bool.and_eq_true, beq_iff_eq] at describes
  obtain ⟨⟨⟨-, names⟩, -⟩, counts⟩ := describes
  have place' : (expansionPlace here call m key block s).Known cx .all :=
    expansionPlace_known place trivial callee ⟨trivial, fun _ _ => trivial, fun _ _ => trivial⟩ shallow m s
  have scope := place'.activation.path.mono place'.depth
  have entered : (enteredExpansion here call key s).Known cx .all := enteredExpansion_known known scope
  have known₁ := entered.bindVars scope (fun _ _ => trivial) callee.arguments bound
  have seated : (enteredExpansion here call key s).frame.find? ⟨expansionPath here call key, "self"⟩ =
      some (expansionSelf here call key s).1 := find?_selfBound scope
  rw [integers] at bound
  obtain ⟨value, y, binds⟩ := bindVars_loop integer seated listed consistent place' entered rfl names
    bound
  obtain ⟨loop, first, returns, fills, counter, fresh⟩ := elaborateBody_fills consistent
    (spares "+" (by decide)) (PreludeLoop.compares listed spares) place' known₁ rfl binds.starting
    binds.bounding counts run sound
  have grows := elaborateBody_grows (elaborateExpr_grows cx fuel) run
  have known₂ := (elaborateBody_known (elaborateExpr_known_all consistent fuel) place' known₁
    (fun _ _ => trivial) run).1
  obtain ⟨name, other, found⟩ := binds.named
  have seated₁ := FrameSlots.find?_mono (bindVars_grows bound).labels seated
  have low {name z} (found : s₁.frame.find? ⟨expansionPath here call key, name⟩ = some z) :
      z ∉ loop.compared ++ loop.addends := fun member =>
    Nat.not_le_of_lt (known₁.slots.numbered.find?_lt found) (fresh z member).1
  refine ⟨loop, first, y, fills.drives isolated ?_ ?_ ?_, fun a bs m size => ?_⟩
  · intro z member
    simp only [List.mem_cons, List.not_mem_nil, or_false] at member
    rcases member with rfl | rfl | rfl
    · exact ⟨List.mem_append_right _ (known₂.slots.find?_within scope counter),
        fun member => (fresh _ member).2 rfl⟩
    · exact ⟨List.mem_append_left _ binds.held, low found⟩
    · exact ⟨List.mem_append_left _ List.mem_cons_self, low seated₁⟩
  · exact known₂.find?_ne scope (FrameSlots.find?_mono grows.labels found) counter other
  · exact known₂.find?_ne scope (FrameSlots.find?_mono grows.labels seated₁) counter (by decide)
  · obtain ⟨self, limit, start⟩ := binds.values a bs (m.clearSlots _) size
    exact ⟨self, limit, start ▸ returns p _⟩

theorem expandCall_name {fuel : Nat} {l : Elaborated} {call : CallSyntax} {m : MethodEntry}
    {key : Instantiation} {block : Block} {receiver : Typed.Expr} {arguments : List Typed.Expr}
    {c : ExpandedCall} (h : expandCall cx (elaborateExpr cx fuel) here call m key block receiver
      arguments s = some (l, s')) (node : l.code.node = .inline c) : c.name = m.fullName := by
  rcases expandCall_steps h with ⟨-, rfl, -⟩ | ⟨-, parameters, s₁, body, s₂, -, -, -, rfl⟩
  · cases node
  · cases node
    rfl

end Expansions

/-- A block leaves the slots of the expansion alone in which it is yielded to. -/
theorem isolated_of_within {p : Typed.Program} {globals constants : List (String × Ty)}
    {e : Typed.Expr} {c : ExpandedCall} (whole : p.Scoped) (typed : p.WellTyped globals constants)
    (isolates : ∀ m ∈ p.allMethods, m.Isolates p) (within : p.Within e) (node : e.node = .inline c)
    {ty : Option Ty} {parameters locals : List SlotId} {arguments : List Typed.Expr}
    {body : Typed.Expr} (stays : Typed.Expr.Stays ⟨ty, .yield parameters locals arguments body⟩ c.body) :
    (∀ m v m₁, p.Returns body m v m₁ → body.ty.isSome = true) ∧
      ∀ s ∈ c.slots, s ∉ parameters ++ locals ∧ ∀ fuel, Typed.Spares s (p.eval fuel body) := by
  obtain ⟨tm, member, inside⟩ := within
  obtain ⟨scopes, around⟩ := Typed.Method.inside_iff.1 inside
  have entered : tm.Encloses (.call c :: scopes) c.body :=
    .enter (x := .call c) around (by rw [node]; rfl)
  have yielded := entered.stays stays
  constructor
  · rintro m v m₁ ⟨fuel, enough⟩
    have inside := Typed.Method.inside_iff.2
      ⟨_, .enter (x := .block parameters locals body) yielded rfl⟩
    obtain ⟨Γ, checked⟩ := (typed.method member).body.inside inside
    exact (Typed.eval_ends whole typed checked fuel).returns _ _ _ (enough fuel (Nat.le_refl _))
  · obtain ⟨c', outer, stands, spared⟩ :=
      (isolates tm member).yields _ _ _ _ _ _ yielded rfl
    rw [Typed.standsIn] at stands
    obtain rfl := (List.cons.inj stands).1
    exact spared

end Inference

namespace Compilation

open Inference
open Typed (ExpandedCall CountingLoop)

/-- A call of the prelude for integers has been expanded to a loop that runs its block. -/
theorem ofBodies_expands {limits : Limits} {bodies : List (List Expr)} {c : Compilation}
    {d : Definitions} {k : PreludeLoop} {i : Nat} {e : Typed.Expr} {call : ExpandedCall}
    (compiled : ofBodies limits bodies = .ok c) (collected : Definitions.ofBodies bodies = .ok d)
    (loops : d.HasLoops) (keeps : d.KeepsCounting) (listed : PreludeLoop.all[i]? = some k)
    (within : c.program.Within e) (node : e.node = .inline call) (name : call.name = k.fullName)
    (integers : ∀ d ∈ call.receiver :: call.arguments, d.ty = some Ty.int) :
    ∃ loop, k.Expands c.program call loop := by
  obtain ⟨_, collected', -, -, body, s, run, made, known, sound, -⟩ := ofBodies_last compiled
  cases collected.symm.trans collected'
  have consistent := Definitions.ofBodies_consistent collected
  have sourced := (madeProgram_sources consistent known.tables sound run).1
  have isolates : ∀ m ∈ c.program.allMethods, m.Isolates c.program := by
    rw [made]
    exact fun m member => (madeProgram_laid consistent known.tables run m member).isolates _
  obtain ⟨globals, constants, typed⟩ := ofBodies_typed compiled
  rw [← made] at sourced
  have source := sourced e within
  rw [node] at source
  obtain ⟨fuel, here, syntactic, m, key, block, s₀, l, s₁, step, found, callee, receiver, arguments⟩ :=
    source
  have named : m.fullName = k.fullName := (expandCall_name step.run step.node).symm.trans name
  obtain ⟨-, describes⟩ := loops.own consistent listed keeps found named
  have integer : key.selfType = Ty.int :=
    Option.some.inj (receiver.symm.trans (integers _ List.mem_cons_self))
  have types : key.arguments = m.parameters.map fun _ => Ty.int := by
    obtain ⟨m', found', arity⟩ := callee.arity
    obtain rfl := Option.some.inj (found.symm.trans found')
    rw [List.map_const', arity, List.eq_replicate_iff]
    refine ⟨rfl, fun t member => ?_⟩
    have given : some t ∈ call.arguments.map (·.ty) := arguments ▸ List.mem_map_of_mem member
    obtain ⟨d, listed, type⟩ := List.mem_map.1 given
    exact Option.some.inj (type.symm.trans (integers d (List.mem_cons_of_mem _ listed)))
  exact expandCall_expands (List.mem_of_getElem? listed) describes consistent keeps.2 step.place
    step.known callee integer types step.run step.sound step.node fun ty parameters locals given body stays =>
      isolated_of_within (ofBodies_exits compiled).2 typed isolates within node stays

/-- The prelude counts exactly, except up to the largest integer. Where a program redefines neither its
loops nor the operators that they use, `times` and `upto` answer for integers. A call of `times` that is
compiled runs its block for the integers from zero on that are below the receiver, one after the other,
and then gives the receiver, if these runs end with values, whatever else they do; so does a call of
`upto`, for the integers from the receiver up to the argument, if that is not the largest one. Up to the
largest integer a call never ends as long as its block ends with values, since after the largest one
counting goes on with the smallest one. -/
theorem compiled_prelude_counts {options : Options} {text : String} {ds ds' : Diagnostics}
    {c : Compilation} (compiled : ofText options text ds = (.ok c, ds'))
    (prelude : options.includePrelude = true) :
    ∃ modules ds₁ definitions,
      (Compile.readWithPrelude options text).run.run ds = (.ok modules, ds₁) ∧
      Definitions.ofBodies (modules.map (·.body)) = .ok definitions ∧
      (definitions.KeepsCounting →
        (∀ block self,
          definitions.dispatch? ⟨Ty.int, "times", [], block, self⟩ = some (.method ⟨0⟩) ∧
            definitions.dispatch? ⟨Ty.int, "upto", [Ty.int], block, self⟩ = some (.method ⟨1⟩)) ∧
        ∀ e, c.program.Within e → ∀ call, e.node = .inline call →
          (∀ d ∈ call.receiver :: call.arguments, d.ty = some Ty.int) →
            (call.name = "Int#times" → ∃ loop : CountingLoop, loop.YieldedBy call.body ∧
              ∀ a, loop.Iterates c.program a e call a [] 0 a.toInt.toNat) ∧
            (call.name = "Int#upto" → ∃ loop : CountingLoop, loop.YieldedBy call.body ∧ ∀ a b,
              (b ≠ Int64.maxValue →
                loop.Iterates c.program b e call a [b] a (b.toInt + 1 - a.toInt).toNat) ∧
              (b = Int64.maxValue → loop.NeverEnds c.program b e call a [b] a))) := by
  obtain ⟨modules, ds₁, read, compiled⟩ := ofText_steps compiled
  obtain ⟨definitions, collected, -⟩ := ofBodies_last compiled
  obtain ⟨library, program, rfl, loops⟩ := Compile.readWithPrelude_definesLoops prelude read
  have loops := Definitions.ofBodies_hasLoops loops collected
  have consistent := Definitions.ofBodies_consistent collected
  have known : definitions.isClass "Int" = true := Definitions.builtin_isClass collected (by decide)
  refine ⟨_, ds₁, definitions, read, collected, fun keeps => ⟨fun block self =>
    ⟨loops.dispatch? consistent (i := 0) rfl known keeps block self,
      loops.dispatch? consistent (i := 1) rfl known keeps block self⟩, ?_⟩⟩
  intro e within call node integers
  constructor
  · intro name
    obtain ⟨loop, expands⟩ := ofBodies_expands (i := 0) compiled collected loops keeps rfl within
      node name integers
    refine ⟨loop, expands.yields, fun a => expands.iterates node a [] rfl ?_⟩
    have passes := Primitive.lt_passes a 0
    rwa [Int64.toInt_zero, Int.sub_zero] at passes
  · intro name
    obtain ⟨loop, expands⟩ := ofBodies_expands (i := 1) compiled collected loops keeps rfl within
      node name integers
    refine ⟨loop, expands.yields, fun a b => ⟨fun ends => ?_, fun greatest => ?_⟩⟩
    · exact expands.iterates node a [b] rfl (Primitive.le_passes ends)
    · exact expands.neverEnds node a [b] rfl (greatest ▸ Primitive.le_maxValue)

def isInteger (e : Typed.Expr) : Bool :=
  match e.ty with
  | some (.simple .int) => true
  | _ => false

/-- Name of the method that the node expands, if its operands are integers. -/
def expandedForInts? : Typed.Node → Option String
  | .inline c => if (c.receiver :: c.arguments).all isInteger then some c.name else none
  | _ => none

theorem expandedForInts?_some {n : Typed.Node} {name : String} (expanded : expandedForInts? n = some name) :
    ∃ call, n = .inline call ∧ call.name = name ∧
      ∀ d ∈ call.receiver :: call.arguments, d.ty = some Ty.int := by
  unfold expandedForInts? at expanded
  split at expanded
  · rename_i call
    split at expanded
    · rename_i integers
      refine ⟨call, rfl, Option.some.inj expanded, fun d listed => ?_⟩
      have integer := List.all_eq_true.1 integers d listed
      unfold isInteger at integer
      split at integer
      · assumption
      · cases integer
    · cases expanded
  · cases expanded

/-- Blocks that assign to their parameter and to a captured variable. -/
def countingText : String :=
  "n = 0\n5.times do |i|\n  n += i\n  i = n\nend\n1.upto(n) do |i|\n  n += 1\n  i = 0\nend\n"

theorem countingText_counts : ∃ c ds,
    ofText ⟨true, Limits.standard⟩ countingText Diagnostics.empty = (.ok c, ds) ∧
      (∃ e call, ∃ loop : CountingLoop, e.node = .inline call ∧ loop.YieldedBy call.body ∧
        ∀ a, loop.Iterates c.program a e call a [] 0 a.toInt.toNat) ∧
      ∃ e call, ∃ loop : CountingLoop, e.node = .inline call ∧ loop.YieldedBy call.body ∧ ∀ a b,
        (b ≠ Int64.maxValue →
          loop.Iterates c.program b e call a [b] a (b.toInt + 1 - a.toInt).toNat) ∧
        (b = Int64.maxValue → loop.NeverEnds c.program b e call a [b] a) := by
  obtain ⟨c, ds, result, holds⟩ := exists_compiled ⟨true, Limits.standard⟩ countingText
    (fun c => ["Int#times", "Int#upto"].all fun name => c.program.main.body.node.parts.any fun e =>
      expandedForInts? e.node == some name)
    (by decide +kernel)
  have keeping : ((Compile.readWithPrelude ⟨true, Limits.standard⟩ countingText).run.run
      Diagnostics.empty).1.toOption.any (fun modules =>
        (Definitions.ofBodies (modules.map (·.body))).toOption.any (·.KeepsCounting)) = true := by
    decide +kernel
  obtain ⟨modules, ds₁, definitions, read, collected, counts⟩ := compiled_prelude_counts result rfl
  rw [read] at keeping
  simp only [collected, Except.toOption, Option.any_some, decide_eq_true_eq] at keeping
  obtain ⟨-, each⟩ := counts keeping
  have found (name : String) (member : name ∈ ["Int#times", "Int#upto"]) : ∃ e call,
      c.program.Within e ∧ e.node = .inline call ∧ call.name = name ∧
        ∀ d ∈ call.receiver :: call.arguments, d.ty = some Ty.int := by
    obtain ⟨e, part, expanded⟩ := List.any_eq_true.1 (List.all_eq_true.1 holds name member)
    have within : c.program.Within e :=
      .part ⟨c.program.main, List.mem_cons_self, .self _⟩ part
    obtain ⟨call, node, expands⟩ := expandedForInts?_some (beq_iff_eq.1 expanded)
    exact ⟨e, call, within, node, expands⟩
  obtain ⟨e, call, within, node, name, integers⟩ := found "Int#times" (by simp)
  obtain ⟨loop, yielded, times⟩ := (each e within call node integers).1 name
  obtain ⟨e', call', within', node', name', integers'⟩ := found "Int#upto" (by simp)
  obtain ⟨loop', yielded', upto⟩ := (each e' within' call' node' integers').2 name'
  exact ⟨c, ds, result, ⟨e, call, loop, node, yielded, times⟩, e', call', loop', node', yielded', upto⟩

end Compilation

end TypedBlocks

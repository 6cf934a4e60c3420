import TypedBlocks.Proofs.DefinitionTables
import TypedBlocks.Proofs.Completions
import TypedBlocks.Proofs.ExitPoints
import TypedBlocks.Proofs.ExitScope
import TypedBlocks.Proofs.FinishedMethods
import TypedBlocks.Proofs.FrameSlots

/-!
# Scopes of elaborated code

Elaborated code names what stands around the place it is elaborated at, whichever links led there:
the targets of the body itself, of the body a block stands in, and of the call that a block is given
to. Its exit points are new ones, so no two of them are the same in a whole pass.
-/
namespace TypedBlocks.Inference

open Typed (InstanceId SlotId Slot Scope Point)
open Pass

section Contexts

/-- The scope has the run-time target of an exit. -/
def RunTarget.In (σ : Scope) : RunTarget → Prop
  | .frame id => id ∈ σ.frames
  | .break target => σ.Encloses target

mutual

/-- All that exits of the body can be sent to is in the scope, also through the bodies that a block
stands in and the calls it is given to. -/
def BodyContext.In (σ : Scope) : BodyContext → Prop
  | ⟨_, _, _, selfSlot, targets, origin⟩ =>
    σ.HasSlot selfSlot ∧ (∀ t ∈ targets, t.2.In σ) ∧ origin.In σ

def Origin.In (σ : Scope) : Origin → Prop
  | .body => True
  | .expansion _ site definer => site ∈ σ.sites ∧ definer.In σ
  | .block _ definer => definer.In σ

end

variable {σ τ : Scope}

/-- The second scope has all exits of the first, and the same slots and methods. -/
structure Extends (σ τ : Scope) : Prop where
  frames : ∀ f ∈ σ.frames, f ∈ τ.frames
  sites : ∀ s ∈ σ.sites, s ∈ τ.sites
  loops : ∀ l ∈ σ.loops, l ∈ τ.loops
  slots : τ.slots = σ.slots

theorem RunTarget.In.extend (wider : Extends σ τ) {t : RunTarget} (inScope : t.In σ) :
    t.In τ := by
  cases t with
  | frame id => exact wider.frames id inScope
  | «break» target =>
    cases target with
    | call site => exact wider.sites site inScope
    | loop id => exact wider.loops id inScope

mutual

theorem BodyContext.In.extend (wider : Extends σ τ) : {a : BodyContext} → a.In σ → a.In τ
  | ⟨_, _, _, _, _, _⟩, ⟨self, targets, origin⟩ =>
    ⟨by simpa [Scope.HasSlot, wider.slots] using self,
      fun t member => (targets t member).extend wider, origin.extend wider⟩

theorem Origin.In.extend (wider : Extends σ τ) : {o : Origin} → o.In σ → o.In τ
  | .body, _ => trivial
  | .expansion _ _ _, ⟨site, definer⟩ => ⟨wider.sites _ site, definer.extend wider⟩
  | .block _ _, definer => BodyContext.In.extend wider definer

end

theorem extends_inLoop (σ : Scope) (id : LoopId) : Extends σ (σ.inLoop id) :=
  ⟨fun _ h => h, fun _ h => h, fun _ h => List.mem_cons_of_mem _ h, rfl⟩

theorem extends_inExpansion (σ : Scope) (frame : FrameId) (site : SiteId) :
    Extends σ (σ.inExpansion frame site) :=
  ⟨fun _ h => List.mem_cons_of_mem _ h, fun _ h => List.mem_cons_of_mem _ h, fun _ h => h, rfl⟩

/-- Wherever the target of an exit is found, it is in the scope. -/
theorem BodyContext.In.target? {exit : ExitTarget} {run : RunTarget} :
    {a : BodyContext} → a.In σ → a.target? exit = some run → run.In σ
  | ⟨_, _, _, _, targets, .block _ definer⟩, ⟨_, inScope, outer⟩, found => by
    rw [BodyContext.target?, Option.or_eq_some_iff] at found
    rcases found with here | ⟨-, there⟩
    · obtain ⟨x, member, -⟩ := lookup_mem here
      exact inScope _ member
    · exact BodyContext.In.target? outer there
  | ⟨_, _, _, _, targets, .body⟩, ⟨_, inScope, _⟩, found => by
    obtain ⟨x, member, -⟩ := lookup_mem found
    exact inScope _ member
  | ⟨_, _, _, _, targets, .expansion _ _ _⟩, ⟨_, inScope, _⟩, found => by
    obtain ⟨x, member, -⟩ := lookup_mem found
    exact inScope _ member

theorem BodyContext.In.methodBody : {a : BodyContext} → a.In σ → a.methodBody.In σ
  | ⟨_, _, _, _, _, .block _ definer⟩, ⟨_, _, outer⟩ =>
    BodyContext.In.methodBody (a := definer) outer
  | ⟨_, _, _, _, _, .body⟩, inScope => inScope
  | ⟨_, _, _, _, _, .expansion _ _ _⟩, inScope => inScope

/-- A block that runs for a yield is in the scope of the yield. -/
theorem BodyContext.In.yielded {a definer : BodyContext} {block : Block} {site : SiteId}
    (inScope : a.In σ) (origin : a.methodBody.origin = .expansion block site definer) :
    (blockContext block site definer).In σ := by
  have body := inScope.methodBody
  rcases hb : a.methodBody with ⟨path, name, selfType, selfSlot, targets, o⟩
  rw [hb] at body origin
  cases origin
  obtain ⟨-, -, sited, outer⟩ := body
  rcases definer with ⟨path', name', selfType', selfSlot', targets', o'⟩
  refine ⟨outer.1, ?_, outer⟩
  intro t member
  cases List.mem_singleton.1 member
  exact sited

theorem BodyContext.In.self {a : BodyContext} (inScope : a.In σ) : σ.HasSlot a.selfSlot := by
  rcases a with ⟨_, _, _, _, _, _⟩
  exact inScope.1

theorem BodyContext.In.withTarget {a : BodyContext} (inScope : a.In σ) {exit : ExitTarget}
    {run : RunTarget} (target : run.In σ) : (a.withTarget exit run).In σ := by
  rcases a with ⟨_, _, _, _, _, _⟩
  refine ⟨inScope.1, fun t member => ?_, inScope.2.2⟩
  rcases List.mem_cons.1 member with rfl | member
  · exact target
  · exact inScope.2.1 t member

end Contexts

section States

/-- The methods are known with the number of their arguments. -/
def Arities (known : List (Instantiation × InstanceId)) (arity : InstanceId → Option Nat) : Prop :=
  ∀ key id, (key, id) ∈ known → arity id = some key.arguments.length

/-- The methods that a state knows, with the number of their arguments. -/
def PassState.Arities (s : PassState) (arity : InstanceId → Option Nat) : Prop :=
  Inference.Arities s.instances arity

/-- The scope has all slots and methods of the state. -/
structure PassState.Fits (s : PassState) (σ : Scope) : Prop where
  slots : s.frame.slots.length ≤ σ.slots
  arities : s.Arities σ.arity

theorem PassState.Grows.arities {s s' : PassState} (grows : s.Grows s')
    {arity : InstanceId → Option Nat} (known : s'.Arities arity) : s.Arities arity :=
  fun key id member => known key id (grows.instances.subset member)

theorem PassState.Grows.fits {s s' : PassState} (grows : s.Grows s') {σ : Scope}
    (fits : s'.Fits σ) : s.Fits σ :=
  ⟨Nat.le_trans grows.slots fits.slots, grows.arities fits.arities⟩

/-- A method has the number of its place and is in scope. -/
def ScopedMethod : MethodProperty := fun i known m =>
  m.id = ⟨i⟩ ∧ ∀ arity, Arities known arity → m.Scoped arity

theorem scopedMethod_lasting : ScopedMethod.Lasting := fun _ _ _ _ longer ⟨numbered, inScope⟩ =>
  ⟨numbered, fun arity later => inScope arity fun key id member =>
    later key id (longer.subset member)⟩

/-- Every method that has come in between is finished and in scope, and takes as many arguments as
its types say. -/
abbrev PassState.Completes : PassState → PassState → Prop :=
  PassState.Finishes ScopedMethod fun key m => m.parameters.length = key.arguments.length

/-- The points of the methods that are finished. -/
def PassState.points (s : PassState) : List Point :=
  s.methods.toList.flatMap fun m => (m.map Typed.Method.points).getD []

/-- The point has been numbered already. -/
def PassState.used (s : PassState) : Point → Bool
  | .frame id => id.val < s.nextFrame
  | .site id => id.val < s.nextSite
  | .loop id => id.val < s.nextLoop

/-- One for a point that has been numbered between two states, and zero for any other. -/
def fresh (s s' : PassState) (x : Point) : Nat :=
  if s.used x then 0 else if s'.used x then 1 else 0

theorem PassState.used_of_le {s s' : PassState} (frames : s.nextFrame ≤ s'.nextFrame)
    (sites : s.nextSite ≤ s'.nextSite) (loops : s.nextLoop ≤ s'.nextLoop) {x : Point}
    (old : s.used x = true) : s'.used x = true := by
  cases x with
  | frame id => exact decide_eq_true (Nat.lt_of_lt_of_le (of_decide_eq_true old) frames)
  | site id => exact decide_eq_true (Nat.lt_of_lt_of_le (of_decide_eq_true old) sites)
  | loop id => exact decide_eq_true (Nat.lt_of_lt_of_le (of_decide_eq_true old) loops)

theorem PassState.Grows.used {s s' : PassState} (grows : s.Grows s') {x : Point}
    (old : s.used x = true) : s'.used x = true :=
  used_of_le grows.frames grows.sites grows.loops old

/-- What is new in a sequence is new in just one of its parts. -/
theorem fresh_add {s s₁ s₂ : PassState} {x : Point}
    (first : s.used x = true → s₁.used x = true) (second : s₁.used x = true → s₂.used x = true) :
    fresh s s₁ x + fresh s₁ s₂ x = fresh s s₂ x := by
  revert first second
  simp only [fresh]
  cases s.used x <;> cases s₁.used x <;> cases s₂.used x <;> simp

theorem fresh_of_same {s s' : PassState} (same : ∀ x, s'.used x = s.used x) (x : Point) :
    fresh s s' x = 0 := by
  rw [fresh, same]
  cases s.used x <;> rfl

end States

theorem fresh_frame (s s' : PassState) (frames : s'.nextFrame = s.nextFrame + 1)
    (sites : s'.nextSite = s.nextSite) (loops : s'.nextLoop = s.nextLoop) (x : Point) :
    fresh s s' x = [Point.frame ⟨s.nextFrame⟩].count x := by
  rcases x with ⟨⟨n⟩⟩ | ⟨⟨n⟩⟩ | ⟨⟨n⟩⟩
  · simp only [fresh, PassState.used, frames, List.count_singleton, decide_eq_true_eq, beq_iff_eq,
      Point.frame.injEq, FrameId.mk.injEq]
    grind
  · simp [fresh, PassState.used, sites]
  · simp [fresh, PassState.used, loops]

theorem fresh_call {s s' : PassState} (frames : s'.nextFrame = s.nextFrame + 1)
    (sites : s'.nextSite = s.nextSite + 1) (loops : s'.nextLoop = s.nextLoop) (x : Point) :
    fresh s s' x = [Point.frame ⟨s.nextFrame⟩, Point.site ⟨s.nextSite⟩].count x := by
  rcases x with ⟨⟨n⟩⟩ | ⟨⟨n⟩⟩ | ⟨⟨n⟩⟩
  · simp only [fresh, PassState.used, frames, List.count_cons, List.count_nil, decide_eq_true_eq,
      beq_iff_eq, Point.frame.injEq, FrameId.mk.injEq, reduceCtorEq, if_false]
    grind
  · simp only [fresh, PassState.used, sites, List.count_cons, List.count_nil, decide_eq_true_eq,
      beq_iff_eq, Point.site.injEq, SiteId.mk.injEq, reduceCtorEq, if_false]
    grind
  · simp [fresh, PassState.used, loops]

theorem fresh_loop (s : PassState) (x : Point) :
    fresh s { s with nextLoop := s.nextLoop + 1 } x = [Point.loop ⟨s.nextLoop⟩].count x := by
  rcases x with ⟨⟨n⟩⟩ | ⟨⟨n⟩⟩ | ⟨⟨n⟩⟩
  · simp [fresh, PassState.used]
  · simp [fresh, PassState.used]
  · simp only [fresh, PassState.used, List.count_singleton, decide_eq_true_eq, beq_iff_eq,
      Point.loop.injEq, LoopId.mk.injEq]
    grind

/-- Code that a run of a pass has made at a place: it is in every scope that the place is in and
that has room for the slots and methods of the run, and all its points are new. -/
structure Placed (a : BodyContext) (s : PassState) (codes : List Typed.Expr) (s' : PassState) :
    Prop where
  grows : s.Grows s'
  numbered : s'.frame.Numbered
  inScope : ∀ σ, a.In σ → s'.Fits σ → ∀ c ∈ codes, c.Scoped σ
  completes : s.Completes s'
  counted : ∀ x, (Typed.listPoints codes).count x + s'.points.count x ≤
    s.points.count x + fresh s s' x

namespace Placed

variable {a : BodyContext} {s s₁ s' : PassState} {codes ds : List Typed.Expr}

/-- A step that makes no code and touches neither methods nor counters. -/
theorem of_step (grows : s.Grows s') (numbered : s'.frame.Numbered)
    (methods : s'.methods = s.methods) (instances : s'.instances = s.instances) :
    Placed a s [] s' where
  grows := grows
  numbered := numbered
  inScope σ placed fits c member := by simp at member
  completes := .of_same methods instances
  counted x := by
    simp only [Typed.listPoints_nil, List.count_nil, PassState.points, methods]
    omega

theorem refl (numbered : s.frame.Numbered) : Placed a s [] s :=
  of_step (.refl s) numbered rfl rfl

theorem trans (first : Placed a s codes s₁) (second : Placed a s₁ ds s') :
    Placed a s (codes ++ ds) s' where
  grows := first.grows.trans second.grows
  numbered := second.numbered
  inScope σ placed fits c member := by
    rcases List.mem_append.1 member with member | member
    · exact first.inScope σ placed (second.grows.fits fits) c member
    · exact second.inScope σ placed fits c member
  completes := first.completes.trans scopedMethod_lasting second.completes second.grows
  counted x := by
    have countFirst := first.counted x
    have countSecond := second.counted x
    have additive := fresh_add (x := x) first.grows.used second.grows.used
    rw [Typed.listPoints_append, List.count_append]
    omega

/-- Code put together from the codes at hand, in any order, introduces no point of its own. -/
theorem node_perm {code : Typed.Expr} (parts : Placed a s codes s')
    (points : code.points.Perm (Typed.listPoints codes))
    (inScope : ∀ σ, a.In σ → s'.Fits σ → (∀ c ∈ codes, c.Scoped σ) → code.Scoped σ) :
    Placed a s [code] s' where
  grows := parts.grows
  numbered := parts.numbered
  inScope σ placed fits c member := by
    cases List.mem_singleton.1 member
    exact inScope σ placed fits (parts.inScope σ placed fits)
  completes := parts.completes
  counted x := by
    rw [Typed.listPoints_cons, Typed.listPoints_nil, List.append_nil, points.count_eq x]
    exact parts.counted x

theorem node {code : Typed.Expr} (parts : Placed a s codes s')
    (points : code.points = Typed.listPoints codes)
    (inScope : ∀ σ, a.In σ → s'.Fits σ → (∀ c ∈ codes, c.Scoped σ) → code.Scoped σ) :
    Placed a s [code] s' := parts.node_perm (.of_eq points) inScope

/-- Code that introduces points and holds a body elaborated at another place, in a wider scope. -/
theorem around {b : BodyContext} {entered : PassState} {pts : List Point}
    {body code : Typed.Expr} (operands : Placed a s codes s₁) (enters : s₁.Grows entered)
    (methods : entered.methods = s₁.methods) (instances : entered.instances = s₁.instances)
    (new : ∀ x, fresh s₁ entered x = pts.count x) (inner : Placed b entered [body] s')
    (points : code.points.Perm (pts ++ Typed.listPoints codes ++ body.points))
    (inScope : ∀ σ, a.In σ → s'.Fits σ → (∀ c ∈ codes, c.Scoped σ) →
      (∀ τ, b.In τ → τ.slots = σ.slots → τ.arity = σ.arity → body.Scoped τ) → code.Scoped σ) :
    Placed a s [code] s' where
  grows := (operands.grows.trans enters).trans inner.grows
  numbered := inner.numbered
  inScope σ inside fits c member := by
    cases List.mem_singleton.1 member
    refine inScope σ inside fits
      (operands.inScope σ inside ((enters.trans inner.grows).fits fits)) ?_
    intro τ placed slots arity
    have fitsInner : s'.Fits τ := ⟨slots ▸ fits.slots, arity ▸ fits.arities⟩
    exact inner.inScope τ placed fitsInner body List.mem_cons_self
  completes := operands.completes.trans scopedMethod_lasting
    ((PassState.Finishes.of_same methods instances).trans scopedMethod_lasting inner.completes
      inner.grows)
    (enters.trans inner.grows)
  counted x := by
    have countOperands := operands.counted x
    have countBody := inner.counted x
    have samePoints : entered.points = s₁.points := by rw [PassState.points, methods]; rfl
    have enteredNew := new x
    have additive := fresh_add (x := x) operands.grows.used (enters.trans inner.grows).used
    have additiveBody := fresh_add (x := x) enters.used inner.grows.used
    simp only [Typed.listPoints_cons, Typed.listPoints_nil, List.append_nil] at countBody ⊢
    rw [points.count_eq x, List.count_append, List.count_append]
    rw [samePoints] at countBody
    omega

/-- A step after the code that leaves frame, methods and counters alone. -/
theorem then_assigned (parts : Placed a s codes s') (keys : List ScopeVar) :
    Placed a s codes { s' with assigned := keys } := by
  have step : Placed a s' [] { s' with assigned := keys } :=
    of_step (grows_assigned s' keys) parts.numbered rfl rfl
  simpa using parts.trans step

theorem then_tables (parts : Placed a s codes s') {ts : Tables} (grown : s'.tables.Grows ts) :
    Placed a s codes { s' with tables := ts } := by
  have step : Placed a s' [] { s' with tables := ts } :=
    of_step (grows_tables s' grown) parts.numbered rfl rfl
  simpa using parts.trans step

theorem then_error (parts : Placed a s codes s') (e : StaticError) :
    Placed a s codes { s' with errors := s'.errors ++ [e] } := by
  have step : Placed a s' [] { s' with errors := s'.errors ++ [e] } :=
    of_step (grows_with_error s' e) parts.numbered rfl rfl
  simpa using parts.trans step

/-- Code in front of the rest that introduces no point. -/
theorem leaf_cons {leaf : Typed.Expr} (parts : Placed a s codes s') (points : leaf.points = [])
    (inScope : ∀ σ, a.In σ → s'.Fits σ → leaf.Scoped σ) : Placed a s (leaf :: codes) s' where
  grows := parts.grows
  numbered := parts.numbered
  inScope σ placed fits c member := by
    rcases List.mem_cons.1 member with rfl | member
    · exact inScope σ placed fits
    · exact parts.inScope σ placed fits c member
  completes := parts.completes
  counted x := by
    rw [Typed.listPoints_cons, points, List.nil_append]
    exact parts.counted x

/-- The receiver may be lost. -/
theorem tail {c : Typed.Expr} (parts : Placed a s (c :: codes) s') : Placed a s codes s' where
  grows := parts.grows
  numbered := parts.numbered
  inScope σ placed fits d member :=
    parts.inScope σ placed fits d (List.mem_cons_of_mem c member)
  completes := parts.completes
  counted x := by
    have counted := parts.counted x
    rw [Typed.listPoints_cons, List.count_append] at counted
    omega

/-- What stands in for code after an error names nothing. -/
theorem failed (parts : Placed a s codes s') (e : StaticError) :
    Placed a s [Elaborated.failed.code] { s' with errors := s'.errors ++ [e] } := by
  have rest := parts.then_error e
  exact
    { grows := rest.grows
      numbered := rest.numbered
      inScope := fun σ _ _ c member => by
        cases List.mem_singleton.1 member
        trivial
      completes := rest.completes
      counted := fun x => by
        have counted := rest.counted x
        have none : (Typed.listPoints [Elaborated.failed.code]).count x = 0 := rfl
        omega }

end Placed

/-- Every run places its code, and gives it the type of its normal end. -/
def Elaborate.Placing (elaborate : Elaborate) : Prop :=
  ∀ here e s l s', s.frame.Numbered → elaborate here e s = some (l, s') →
    Placed here.activation s [l.code] s' ∧ l.code.ty = l.ends.normal

theorem ofParts_scoped {σ : Scope} {parts : List Typed.Expr} (ty : Option Ty)
    (each : ∀ c ∈ parts, c.Scoped σ) : (Typed.Expr.ofParts parts ty).Scoped σ := by
  unfold Typed.Expr.ofParts
  split
  · rename_i only
    have inScope := each only List.mem_cons_self
    rcases only with ⟨t, node⟩
    exact inScope
  · exact Typed.listScoped_iff.2 each

section Constructs

variable {cx : Setting} {elaborate : Elaborate} {here : Place} {s s' : PassState} {l : Elaborated}
  (placing : elaborate.Placing) (numbered : s.frame.Numbered)

include placing numbered

theorem elaborateParts_placed {ends ends' : Completions} {es : List Expr}
    {codes : List Typed.Expr} (falls : ends.fallsThrough = true)
    (h : elaborateParts elaborate here ends es s = some ((codes, ends'), s')) :
    Placed here.activation s codes s' ∧
      (ends'.fallsThrough = true → ∀ c ∈ codes, c.ty.isSome = true) := by
  induction es generalizing ends codes s with
  | nil =>
    obtain ⟨rfl, -, rfl⟩ := elaborateParts_nil_steps h
    exact ⟨.refl numbered, fun _ c member => by simp at member⟩
  | cons e es ih =>
    obtain ⟨first, s₁, run, rest⟩ := elaborateParts_cons_steps h
    obtain ⟨placed, typed⟩ := placing _ _ _ _ _ numbered run
    have reached : (ends.andThen first.ends).fallsThrough = first.code.ty.isSome := by
      rw [Completions.fallsThrough, Completions.andThen_normal _ falls, typed]
    rcases rest with ⟨fallsOn, rest, runRest, rfl⟩ | ⟨stops, rfl, rfl, rfl⟩
    · obtain ⟨placedRest, typedRest⟩ := ih placed.numbered fallsOn runRest
      refine ⟨placed.trans placedRest, fun fallsEnd c member => ?_⟩
      rcases List.mem_cons.1 member with rfl | member
      · exact reached ▸ fallsOn
      · exact typedRest fallsEnd c member
    · refine ⟨placed, fun fallsEnd => ?_⟩
      rw [stops] at fallsEnd
      cases fallsEnd

theorem elaborateBody_placed {body : List Expr}
    (h : elaborateBody elaborate here body s = some (l, s')) :
    Placed here.activation s [l.code] s' ∧ l.code.ty = l.ends.normal := by
  rcases elaborateBody_steps h with ⟨-, rfl, rfl⟩ | ⟨-, parts, ends, run, rfl⟩
  · exact ⟨(Placed.refl numbered).node rfl fun _ _ _ _ => trivial, rfl⟩
  · obtain ⟨placed, -⟩ := elaborateParts_placed placing numbered rfl run
    exact ⟨placed.node (Typed.ofParts_points parts _) fun _ _ _ each => ofParts_scoped _ each,
      ofParts_ty parts _⟩

omit placing in
theorem elaborateRead_placed {span : Span} {v : Variable}
    (h : elaborateRead cx here span v s = some (l, s')) :
    Placed here.activation s [l.code] s' ∧ l.code.ty = l.ends.normal := by
  have leaf := Placed.refl (a := here.activation) numbered
  rcases elaborateRead_steps h with ⟨-, rfl, rfl⟩ | ⟨e, -, rfl, rfl⟩ | ⟨-, c, -, rfl, rfl⟩ |
    ⟨-, rfl, rfl⟩ | ⟨-, -, rfl, rfl⟩ | ⟨-, rfl, rfl⟩
  · have looked : Placed here.activation s [] (readLocal cx here.activation v.name s) :=
      .of_step (readLocal_grows _ _) (numbered.lookedUp _ _) rfl rfl
    refine ⟨looked.node rfl fun σ _ fits _ => ?_, rfl⟩
    exact Nat.lt_of_lt_of_le (numbered.lookedUp_slot _ _) fits.slots
  · exact ⟨leaf.failed _, rfl⟩
  · exact ⟨leaf.node rfl fun σ placed _ _ => placed.self, rfl⟩
  all_goals exact ⟨leaf.node rfl fun _ _ _ _ => trivial, rfl⟩

theorem elaborateAssignment_placed {span : Span} {v : Variable} {value : Expr}
    (h : elaborateAssignment cx elaborate here span v value s = some (l, s')) :
    Placed here.activation s [l.code] s' ∧ l.code.ty = l.ends.normal := by
  obtain ⟨first, s₁, run, rest⟩ := elaborateAssignment_steps h
  obtain ⟨placed, typed⟩ := placing _ _ _ _ _ numbered run
  rcases rest with ⟨-, rfl, rfl⟩ | ⟨t, -, ⟨-, rfl, rfl⟩ | ⟨-, -, rfl, rfl⟩ | ⟨-, c, -, rfl, rfl⟩ |
    ⟨-, rfl, rfl⟩ | ⟨-, rfl, rfl⟩⟩
  · exact ⟨placed, typed⟩
  · have looked : Placed here.activation s₁ []
        (assignLocal cx here.activation v.name t s₁) :=
      .of_step (assignLocal_grows _ _ _) (placed.numbered.lookedUp _ _) rfl rfl
    refine ⟨(placed.trans looked).node (by simp [Elaborated.ofNode, Typed.Expr.points,
      Typed.Node.points]) fun σ _ fits each => ⟨?_, each _ List.mem_cons_self⟩, rfl⟩
    exact Nat.lt_of_lt_of_le (placed.numbered.lookedUp_slot _ _) fits.slots
  · exact ⟨placed.failed _, rfl⟩
  · exact ⟨(placed.then_tables (.extendLayout _ _ _ _)).node
      (by simp [Elaborated.ofNode, Typed.Expr.points, Typed.Node.points])
      fun σ inside _ each => ⟨inside.self, each _ List.mem_cons_self⟩, rfl⟩
  · exact ⟨(placed.then_tables (.extendGlobal _ _ _)).node
      (by simp [Elaborated.ofNode, Typed.Expr.points, Typed.Node.points])
      fun σ _ _ each => each first.code List.mem_cons_self, rfl⟩
  · exact ⟨(placed.then_tables (.extendConstant _ _ _)).node
      (by simp [Elaborated.ofNode, Typed.Expr.points, Typed.Node.points])
      fun σ _ _ each => each first.code List.mem_cons_self, rfl⟩

theorem elaborateExit_placed {id : NodeId} {span : Span} {keyword : String} {value : Option Expr}
    (h : elaborateExit cx elaborate here id span keyword value s = some (l, s')) :
    Placed here.activation s [l.code] s' ∧ l.code.ty = l.ends.normal := by
  obtain ⟨first, s₁, run, rest⟩ := elaborateExit_steps h
  have placedValue : Placed here.activation s [first.code] s₁ ∧
      first.code.ty = first.ends.normal := by
    cases value with
    | none =>
      obtain ⟨rfl, rfl⟩ := pure_eq_some.1 run
      exact ⟨(Placed.refl numbered).node rfl fun _ _ _ _ => trivial, rfl⟩
    | some e => exact placing _ _ _ _ _ numbered run
  obtain ⟨placed, typed⟩ := placedValue
  have target {σ : Scope} {run : RunTarget} (inside : here.activation.In σ)
      (found : exitTarget? cx here id = some run) : run.In σ := by
    obtain ⟨x, -, found⟩ := Option.bind_eq_some_iff.1 found
    exact inside.target? found
  rcases rest with ⟨-, rfl, rfl⟩ | ⟨t, -, ⟨f, found, rfl, rfl⟩ | ⟨b, found, rfl, rfl⟩ |
    ⟨-, rfl, rfl⟩⟩
  · exact ⟨placed, typed⟩
  · exact ⟨placed.node (by simp [Elaborated.ofNode, Typed.Expr.points, Typed.Node.points])
      fun σ inside _ each => ⟨target inside found, each _ List.mem_cons_self⟩, rfl⟩
  · exact ⟨placed.node (by simp [Elaborated.ofNode, Typed.Expr.points, Typed.Node.points])
      fun σ inside _ each => ⟨target inside found, each _ List.mem_cons_self⟩, rfl⟩
  · exact ⟨placed.failed _, rfl⟩

theorem elaborateNot_placed {operand : Expr}
    (h : elaborateNot elaborate here operand s = some (l, s')) :
    Placed here.activation s [l.code] s' ∧ l.code.ty = l.ends.normal := by
  obtain ⟨first, run, rest⟩ := elaborateNot_steps h
  obtain ⟨placed, typed⟩ := placing _ _ _ _ _ numbered run
  rcases rest with ⟨-, rfl⟩ | ⟨-, rfl⟩
  · exact ⟨placed, typed⟩
  · exact ⟨placed.node (by simp [Elaborated.ofNode, Typed.Expr.points, Typed.Node.points])
      fun σ _ _ each => each first.code List.mem_cons_self, rfl⟩

theorem elaborateConditional_placed {kind : ConditionKind} {condition : Expr}
    {consequent : List Expr} {alternative : Option (List Expr)}
    (h : elaborateConditional elaborate here kind condition consequent alternative s =
      some (l, s')) :
    Placed here.activation s [l.code] s' ∧ l.code.ty = l.ends.normal := by
  obtain ⟨c, s₁, run, rest⟩ := elaborateConditional_steps h
  obtain ⟨placed, typed⟩ := placing _ _ _ _ _ numbered run
  rcases rest with ⟨-, rfl, rfl⟩ | ⟨-, first, s₂, second, s₃, runFirst, runSecond, rfl, rfl⟩
  · exact ⟨placed, typed⟩
  · obtain ⟨placedFirst, -⟩ := elaborateBody_placed placing placed.numbered runFirst
    have branching := (placed.trans placedFirst).then_assigned s₁.assigned
    obtain ⟨placedSecond, -⟩ := elaborateBody_placed placing branching.numbered runSecond
    have whole := (branching.trans placedSecond).then_assigned
      (assignedAfter s₁.assigned
        [(first.ends.fallsThrough, s₂.assigned), (second.ends.fallsThrough, s₃.assigned)])
    have first_scoped {σ : Scope} (each : ∀ d ∈ [c.code] ++ [first.code] ++ [second.code],
        d.Scoped σ) : c.code.Scoped σ ∧ first.code.Scoped σ ∧ second.code.Scoped σ :=
      ⟨each _ (by simp), each _ (by simp), each _ (by simp)⟩
    cases kind with
    | «if» =>
      exact ⟨whole.node (by simp [Elaborated.ofNode, Typed.Expr.points, branches,
        Typed.Node.points]) fun σ _ _ each => first_scoped each, rfl⟩
    | «unless» =>
      -- The branches are elaborated in the order of the text and stand the other way round.
      refine ⟨whole.node_perm ?_ fun σ _ _ each =>
        ⟨(first_scoped each).1, (first_scoped each).2.2, (first_scoped each).2.1⟩, rfl⟩
      simp only [Elaborated.ofNode, Typed.Expr.points, branches, Typed.Node.points,
        Typed.listPoints_append, Typed.listPoints_cons, Typed.listPoints_nil, List.append_nil,
        List.append_assoc]
      exact List.perm_append_comm.append_left _

/-- The body of a loop is in the scope of the place with the loop added. -/
theorem elaborateWhile_placed {id : NodeId} {condition : Expr} {body : List Expr}
    (h : elaborateWhile elaborate here id condition body s = some (l, s')) :
    Placed here.activation s [l.code] s' ∧ l.code.ty = l.ends.normal := by
  obtain ⟨c, s₁, run, rest⟩ := elaborateWhile_steps h
  obtain ⟨placed, typed⟩ := placing _ _ _ _ _ numbered run
  rcases rest with ⟨-, rfl, rfl⟩ | ⟨-, b, s₂, runBody, rfl, rfl⟩
  · exact ⟨placed, typed⟩
  · have enters := grows_loop s₁
    obtain ⟨placedBody, -⟩ := elaborateBody_placed placing (s := { s₁ with
      nextLoop := s₁.nextLoop + 1 }) placed.numbered runBody
    refine ⟨Placed.then_assigned ?_ _, rfl⟩
    refine placed.around enters rfl rfl (fresh_loop s₁) placedBody (.of_eq ?_) ?_
    · simp [Elaborated.ofNode, Typed.Expr.points, Typed.Node.points]
    · intro σ inside _ each body
      refine ⟨each _ List.mem_cons_self, body _ ?_ rfl rfl⟩
      exact (inside.extend (extends_inLoop σ ⟨s₁.nextLoop⟩)).withTarget List.mem_cons_self

theorem elaborateLogical_placed {connective : Connective} {left right : Expr}
    (h : elaborateLogical elaborate here connective left right s = some (l, s')) :
    Placed here.activation s [l.code] s' ∧ l.code.ty = l.ends.normal := by
  obtain ⟨first, s₁, run, rest⟩ := elaborateLogical_steps h
  obtain ⟨placed, typed⟩ := placing _ _ _ _ _ numbered run
  rcases rest with ⟨-, rfl, rfl⟩ | ⟨t, second, s₂, -, runRight, rfl, rfl⟩
  · exact ⟨placed, typed⟩
  · obtain ⟨placedRight, -⟩ := placing _ _ _ _ _ placed.numbered runRight
    have whole := (placed.trans placedRight).then_assigned s₁.assigned
    cases connective
    all_goals
      exact ⟨whole.node (by simp [Elaborated.ofNode, Typed.Expr.points, connectiveNode,
        Typed.Node.points]) fun σ _ _ each => ⟨each first.code List.mem_cons_self,
          each second.code (List.mem_cons_of_mem _ List.mem_cons_self)⟩, rfl⟩

omit placing numbered in
/-- Variables that are bound at the entry of a scope get slots of the frame at hand. -/
theorem bindVars_placed {a : BodyContext} {path : ScopeChain} {ps : List Parameter}
    {ts : List Ty} {ids : List SlotId} (numbered : s.frame.Numbered)
    (h : bindVars path ps ts s = some (ids, s')) : Placed a s [] s' ∧ s'.frame.Has ids := by
  obtain ⟨numbered', has⟩ := bindVars_slots numbered h
  obtain ⟨methods, instances⟩ := bindVars_keeps h
  exact ⟨.of_step (bindVars_grows h) numbered' methods instances, has⟩

omit placing numbered in
theorem bindYielded_placed {a : BodyContext} {path : ScopeChain} {ps : List BlockParameter}
    {parts : List Typed.Expr} {ids : List SlotId} (numbered : s.frame.Numbered)
    (h : bindYielded path ps parts s = some (ids, s')) :
    Placed a s [] s' ∧ s'.frame.Has ids := by
  obtain ⟨numbered', has⟩ := bindYielded_slots numbered h
  obtain ⟨methods, instances⟩ := bindYielded_keeps h
  exact ⟨.of_step (bindYielded_grows h) numbered' methods instances, has⟩

omit placing numbered in
theorem tempSlots_placed {a : BodyContext} {ts : List Ty} {ids : List SlotId}
    (numbered : s.frame.Numbered) (h : tempSlots ts s = some (ids, s')) :
    Placed a s [] s' ∧ s'.frame.Has ids := by
  obtain ⟨numbered', has⟩ := tempSlots_slots numbered h
  obtain ⟨methods, instances⟩ := tempSlots_keeps h
  exact ⟨.of_step (tempSlots_grows h) numbered' methods instances, has⟩

/-- A yield runs the block in the scope where the block stands. -/
theorem elaborateYield_placed {span : Span} {written : List Expr}
    (h : elaborateYield elaborate here span written s = some (l, s')) :
    Placed here.activation s [l.code] s' ∧ l.code.ty = l.ends.normal := by
  obtain ⟨parts, ends, s₁, run, rest⟩ := elaborateYield_steps h
  obtain ⟨placed, -⟩ := elaborateParts_placed placing numbered rfl run
  rcases rest with ⟨stops, rfl, rfl⟩ | ⟨-, ⟨block, site, definer, parameters, s₂, body, origin,
    bound, runBody, rfl⟩ | ⟨e, -, rfl, rfl⟩⟩
  · refine ⟨placed.node (Typed.ofParts_points parts _) fun _ _ _ each => ofParts_scoped _ each, ?_⟩
    have none : ends.normal = none := by simpa [Completions.fallsThrough] using stops
    rw [ofParts_ty, none]
  · have unassigned := placed.then_assigned
      (s₁.assigned.filter fun k => !isWithin k.path (.block block.id :: definer.path))
    obtain ⟨placedParameters, has⟩ := bindYielded_placed (a := here.activation)
      unassigned.numbered bound
    obtain ⟨placedBody, -⟩ := elaborateBody_placed placing placedParameters.numbered runBody
    have entered := unassigned.trans placedParameters
    have nothing : ∀ x, fresh s₂ s₂ x = ([] : List Point).count x := fresh_of_same fun _ => rfl
    refine ⟨entered.around (.refl _) rfl rfl nothing placedBody (.of_eq ?_) ?_, rfl⟩
    · simp [Elaborated.ofNode, Typed.Expr.points, Typed.Node.points]
    · intro σ inside fits each runs
      refine ⟨fun id member => ?_, fun id member => ?_,
        Typed.listScoped_iff.2 fun c member => each c (by simpa using member), ?_⟩
      · exact Nat.lt_of_lt_of_le (has id member)
          (Nat.le_trans placedBody.grows.slots fits.slots)
      · exact Nat.lt_of_lt_of_le (placedBody.numbered.slotsWithin_lt _ id member) fits.slots
      · exact runs σ (inside.yielded origin) rfl rfl
  · exact ⟨placed.failed _, rfl⟩

omit placing numbered in
theorem sameTypes_length {ts us : List Ty} (same : sameTypes ts us = true) :
    ts.length = us.length := by
  induction ts generalizing us with
  | nil =>
    cases us with
    | nil => rfl
    | cons u us => simp [sameTypes] at same
  | cons t ts ih =>
    cases us with
    | nil => simp [sameTypes] at same
    | cons u us =>
      simp only [sameTypes, Bool.and_eq_true] at same
      rw [List.length_cons, List.length_cons, ih same.2]

omit placing numbered in
/-- The number of a method is known for as many arguments as it is called with. -/
theorem elaborateMethod_known {depth : Nat} {key : Instantiation} {id : InstanceId}
    (growing : elaborate.Growing) (h : elaborateMethod cx elaborate depth key s = some (id, s')) :
    ∃ k, (k, id) ∈ s'.instances ∧ k.arguments.length = key.arguments.length := by
  obtain ⟨k, member, rfl | same⟩ := elaborateMethod_listed growing h
  · exact ⟨k, member, rfl⟩
  · exact ⟨k, member, (sameTypes_length (Bool.and_eq_true_iff.1 same).2).symm⟩

omit placing numbered in
/-- A finished method brings its points to those of the methods before. -/
theorem count_set_pending {f : Option Typed.Method → List Point} (pending : f none = [])
    {l : List (Option Typed.Method)} {i : Nat} (m : Typed.Method) (place : l[i]? = some none)
    (x : Point) : ((l.set i (some m)).flatMap f).count x =
      (f (some m)).count x + (l.flatMap f).count x := by
  induction l generalizing i with
  | nil => simp at place
  | cons o os ih =>
    cases i with
    | zero =>
      cases Option.some.inj place
      simp [pending]
    | succ i =>
      have rest := ih (by simpa using place)
      simp only [List.set_cons_succ, List.flatMap_cons, List.count_append, rest]
      omega

omit numbered in
/-- A method is in scope with its own frame alone, wherever the call stands that made it. -/
theorem madeMethod_scoped {key : Instantiation} {m : MethodEntry} {parameters : List SlotId}
    {depth : Nat} {body : Elaborated} {s₁ s₂ : PassState}
    (bound : bindVars [.instance key] m.parameters key.arguments (enteredMethod key s) =
      some (parameters, s₁))
    (run : elaborateBody elaborate (methodPlace key m depth s) m.definition.body s₁ =
      some (body, s₂)) :
    Placed (methodPlace key m depth s).activation (enteredMethod key s) [body.code] s₂ ∧
      ∀ arity, s₂.Arities arity → (madeMethod key m parameters body s s₂).Scoped arity := by
  have numbered : (enteredMethod key s).frame.Numbered :=
    FrameSlots.Numbered.empty.selfBound _ _
  obtain ⟨placedParameters, has⟩ :=
    bindVars_placed (a := (methodPlace key m depth s).activation) numbered bound
  obtain ⟨placedBody, -⟩ := elaborateBody_placed placing placedParameters.numbered run
  have whole := placedParameters.trans placedBody
  refine ⟨whole, fun arity known => ?_⟩
  have room : (madeMethod key m parameters body s s₂).locals.length =
      s₂.frame.slots.length := typedSlots_length _ _
  have self : (methodSelf key).1.val < s₂.frame.slots.length :=
    Nat.lt_of_lt_of_le (FrameSlots.Numbered.empty.selfBound_lt _ _) whole.grows.slots
  exact
    { numbered := fun i slot found => placedBody.numbered.typedSlots _ found
      selfSlot := by
        rw [Scope.HasSlot, Typed.Method.scope, room]
        exact self
      parameters := fun id member => by
        rw [Scope.HasSlot, Typed.Method.scope, room]
        exact Nat.lt_of_lt_of_le (has id member) placedBody.grows.slots
      body := by
        refine whole.inScope _ ⟨?_, fun t member => ?_, trivial⟩ ⟨?_, known⟩ _
          List.mem_cons_self
        · rw [Scope.HasSlot, Typed.Method.scope, room]
          exact self
        · cases List.mem_singleton.1 member
          exact List.mem_cons_self
        · exact Nat.le_of_eq room.symm }

/-- A method that a call makes present is finished when the call is, and in scope. -/
theorem elaborateMethod_placed {a : BodyContext} {depth : Nat} {key : Instantiation}
    {id : InstanceId} (growing : elaborate.Growing)
    (callable : ∃ m, cx.definitions.method? key.method = some m ∧
      m.parameters.length = key.arguments.length)
    (h : elaborateMethod cx elaborate depth key s = some (id, s')) : Placed a s [] s' := by
  have grows := elaborateMethod_grows growing h
  rcases elaborateMethod_steps h with ⟨-, rfl⟩ | ⟨-, -, ⟨missing, -⟩ | ⟨m, parameters, s₁, body,
    s₂, found, bound, run, rfl⟩⟩
  · exact .refl numbered
  · obtain ⟨m, found, -⟩ := callable
    rw [missing] at found
    cases found
  · obtain ⟨m', found', arity⟩ := callable
    cases found.symm.trans found'
    obtain ⟨inner, inScope⟩ := madeMethod_scoped placing bound run
    have pending : s₂.methods[s.methods.size]? = some none := by
      rw [inner.grows.methods _ (by simp [enteredMethod, admitted])]
      simp [enteredMethod, admitted]
    exact
      { grows := grows
        numbered := numbered
        inScope := fun σ _ _ c member => by simp at member
        completes := .leftMethod inner.grows inner.completes ⟨rfl, inScope⟩
          (bindVars_length bound arity)
        counted := fun x => by
          have countBody := inner.counted x
          have samePoints : (enteredMethod key s).points = s.points := by
            simp [PassState.points, enteredMethod, admitted]
          have finished : (leftMethod key m parameters body s s₂).points.count x =
              (madeMethod key m parameters body s s₂).points.count x + s₂.points.count x := by
            simp only [PassState.points, leftMethod, Array.toList_setIfInBounds]
            exact count_set_pending rfl _ (by simpa using pending) x
          have points : (madeMethod key m parameters body s s₂).points =
              [.frame ⟨s.nextFrame⟩] ++ body.code.points := rfl
          have new : fresh s (enteredMethod key s) x = [Point.frame ⟨s.nextFrame⟩].count x :=
            fresh_frame s (enteredMethod key s) rfl rfl rfl x
          have entered : s.used x = true → (enteredMethod key s).used x = true := by
            intro old
            refine PassState.used_of_le ?_ ?_ ?_ old
            · exact Nat.le_succ _
            · exact Nat.le_refl _
            · exact Nat.le_refl _
          have additive := fresh_add entered inner.grows.used
          have same : fresh s (leftMethod key m parameters body s s₂) x = fresh s s₂ x := by
            cases x <;> rfl
          rw [finished, same, points, List.count_append]
          rw [samePoints] at countBody
          simp only [Typed.listPoints_cons, Typed.listPoints_nil, List.append_nil,
            List.count_nil] at countBody ⊢
          omega }

/-- The operands of an expanded call stay in the scope of the call; its body may leave it. -/
theorem expandCall_placed {call : CallSyntax} {m : MethodEntry} {key : Instantiation}
    {block : Block} {receiver : Typed.Expr} {arguments : List Typed.Expr} {s₀ : PassState}
    (operands : Placed here.activation s₀ (receiver :: arguments) s)
    (h : expandCall cx elaborate here call m key block receiver arguments s = some (l, s')) :
    Placed here.activation s₀ [l.code] s' ∧ l.code.ty = l.ends.normal := by
  rcases expandCall_steps h with ⟨-, rfl, rfl⟩ | ⟨-, parameters, s₁, body, s₂, bound, run, rfl,
    rfl⟩
  · exact ⟨operands.failed _, rfl⟩
  · have numbered' : (enteredExpansion here call key s).frame.Numbered :=
      numbered.selfBound _ _
    have self : (expansionSelf here call key s).1.val <
        (enteredExpansion here call key s).frame.slots.length := numbered.selfBound_lt _ _
    obtain ⟨placedParameters, has⟩ := bindVars_placed
      (a := (expansionPlace here call m key block s).activation) numbered' bound
    obtain ⟨placedBody, -⟩ := elaborateBody_placed placing placedParameters.numbered run
    have inner := placedParameters.trans placedBody
    have enters := enteredExpansion_grows here call key s
    refine ⟨Placed.then_assigned ?_ _, rfl⟩
    refine operands.around enters rfl rfl (fresh_call rfl rfl rfl) inner (.of_eq ?_) ?_
    · simp [Elaborated.ofNode, Typed.Expr.points, Typed.Node.points, madeExpansion,
        Typed.ExpandedCall.points]
    · intro σ inside fits each body
      refine ⟨Nat.lt_of_lt_of_le self (Nat.le_trans inner.grows.slots fits.slots),
        fun id member => Nat.lt_of_lt_of_le (has id member)
          (Nat.le_trans placedBody.grows.slots fits.slots),
        fun id member => Nat.lt_of_lt_of_le
          (placedBody.numbered.slotsWithin_lt _ id member) fits.slots,
        each _ List.mem_cons_self,
        Typed.listScoped_iff.2 fun c member => each c (List.mem_cons_of_mem _ member), ?_⟩
      have wider := extends_inExpansion σ ⟨s.nextFrame⟩ ⟨s.nextSite⟩
      refine body _ ⟨?_, fun t member => ?_, List.mem_cons_self, inside.extend wider⟩ rfl rfl
      · exact Nat.lt_of_lt_of_le self (Nat.le_trans inner.grows.slots fits.slots)
      · cases List.mem_singleton.1 member
        exact List.mem_cons_self

/-- The initializer of a class takes the arguments that the object is made with. -/
theorem elaborateConstruct_placed {call : CallSyntax} {c : String}
    {arguments : List Typed.Expr} {types : List Ty} {s₀ : PassState}
    (growing : elaborate.Growing) (consistent : cx.definitions.Consistent)
    (operands : Placed here.activation s₀ arguments s) (arity : arguments.length = types.length)
    (h : elaborateConstruct cx elaborate here call c arguments types s = some (l, s')) :
    Placed here.activation s₀ [l.code] s' ∧ l.code.ty = l.ends.normal := by
  rcases elaborateConstruct_steps h with ⟨id, instanceId, chosen, made, rfl⟩ |
    ⟨-, ⟨-, rfl, rfl⟩ | ⟨-, rfl, rfl⟩⟩
  · have callable := initializer?_callable consistent chosen
    have placedMethod := elaborateMethod_placed (a := here.activation) placing numbered growing
      callable made
    obtain ⟨k, member, same⟩ := elaborateMethod_known growing made
    refine ⟨(operands.trans placedMethod).node ?_ ?_, rfl⟩
    · simp [Elaborated.ofNode, Typed.Expr.points, Typed.Node.points]
    · intro σ _ fits each
      refine ⟨fun j chosen => ?_, Typed.listScoped_iff.2 fun e member => each e (by
        simpa using member)⟩
      cases chosen
      rw [fits.arities k instanceId member, same, arity]
  · refine ⟨operands.node rfl fun σ _ _ each => ⟨nofun,
      Typed.listScoped_iff.2 each⟩, rfl⟩
  · exact ⟨operands.failed _, rfl⟩

theorem elaborateMethodCall_placed {call : CallSyntax} {m : MethodEntry}
    {receiver : Typed.Expr} {receiverType : Ty} {arguments : List Typed.Expr} {types : List Ty}
    {s₀ : PassState} (growing : elaborate.Growing)
    (callable : ∃ n, cx.definitions.method? m.id = some n ∧ n.parameters.length = types.length)
    (operands : Placed here.activation s₀ (receiver :: arguments) s)
    (arity : arguments.length = types.length)
    (h : elaborateMethodCall cx elaborate here call m receiver receiverType arguments types s =
      some (l, s')) :
    Placed here.activation s₀ [l.code] s' ∧ l.code.ty = l.ends.normal := by
  have called : Placed here.activation s₀ (calledReceiver m receiver :: arguments) s := by
    rw [calledReceiver]
    split
    · exact operands
    · exact operands.tail.leaf_cons rfl fun _ _ _ => trivial
  rcases elaborateMethodCall_steps h with ⟨-, block, -, expanded⟩ | ⟨-, -, rfl, rfl⟩ |
    ⟨-, id, made, rfl⟩
  · exact expandCall_placed placing numbered called expanded
  · exact ⟨operands.failed _, rfl⟩
  · have placedMethod := elaborateMethod_placed (a := here.activation) placing numbered growing
      callable made
    obtain ⟨k, member, same⟩ := elaborateMethod_known growing made
    refine ⟨(called.trans placedMethod).node ?_ ?_, rfl⟩
    · simp [Elaborated.ofNode, Typed.Expr.points, Typed.Node.points]
    · intro σ _ fits each
      refine ⟨?_, each _ (by simp), Typed.listScoped_iff.2 fun e member => each e (by
        simp [member])⟩
      rw [fits.arities k id member, same, calledKey, arity]

theorem elaborateArm_placed {call : CallSyntax} {operands : List Typed.Expr} {types : List Ty}
    {s₀ : PassState} (growing : elaborate.Growing) (consistent : cx.definitions.Consistent)
    (placed : Placed here.activation s₀ operands s) (arity : operands.length = types.length)
    (h : elaborateArm cx elaborate here call operands types s = some (l, s')) :
    Placed here.activation s₀ [l.code] s' ∧ l.code.ty = l.ends.normal := by
  rcases elaborateArm_steps h with ⟨e, -, rfl, rfl⟩ | ⟨receiverType, argumentTypes, rfl, rest⟩
  · exact ⟨placed.failed _, rfl⟩
  · cases operands with
    | nil => simp at arity
    | cons receiver arguments =>
      have same : arguments.length = argumentTypes.length := by simpa using arity
      simp only [List.headD_cons, List.drop_one, List.tail_cons] at rest
      rcases rest with ⟨p, -, rfl, rfl⟩ | ⟨c, -, made⟩ | ⟨lib, name, -, rfl, rfl⟩ |
        ⟨id, m, callee, found, called⟩
      · exact ⟨placed.node rfl fun σ _ _ each => ⟨each _ List.mem_cons_self,
          Typed.listScoped_iff.2 fun e member => each e (List.mem_cons_of_mem _ member)⟩, rfl⟩
      · exact elaborateConstruct_placed placing numbered growing consistent placed.tail same made
      · exact ⟨placed.tail.node rfl fun σ _ _ each => Typed.listScoped_iff.2 each, rfl⟩
      · obtain ⟨n, found', applicable, -⟩ := Definitions.dispatch?_method consistent callee
        cases found.symm.trans found'
        have own := consistent.method?_id found
        exact elaborateMethodCall_placed placing numbered growing
          ⟨m, own ▸ found, Definitions.arity_of_applicable applicable⟩ placed same called

omit placing in
/-- The operands of an arm are temporary slots. -/
theorem armOperands_placed {a : BodyContext} {temps : List SlotId} (has : s.frame.Has temps)
    (types : List Ty) : Placed a s (armOperands temps types) s := by
  induction temps generalizing types with
  | nil => exact .refl numbered
  | cons t temps ih =>
    cases types with
    | nil => exact .refl numbered
    | cons u types =>
      have rest := ih (fun id member => has id (List.mem_cons_of_mem t member)) types
      refine rest.leaf_cons rfl fun σ _ fits => ?_
      exact Nat.lt_of_lt_of_le (has t List.mem_cons_self) fits.slots

theorem elaborateArms_placed {call : CallSyntax} {temps : List SlotId} {before : List ScopeVar}
    {chosen : List (List Ty)} {arms : List (Typed.Arm × Completions × List ScopeVar)}
    (growing : elaborate.Growing) (consistent : cx.definitions.Consistent)
    (has : s.frame.Has temps) (arity : ∀ ts ∈ chosen, ts.length = temps.length)
    (h : elaborateArms cx elaborate here call temps before chosen s = some (arms, s')) :
    Placed here.activation s (arms.map (·.1.body)) s' := by
  induction chosen generalizing s arms with
  | nil =>
    obtain ⟨rfl, rfl⟩ := elaborateArms_nil_steps h
    exact .refl numbered
  | cons types rest ih =>
    obtain ⟨arm, s₁, others, run, runRest, rfl⟩ := elaborateArms_cons_steps h
    have started := (armOperands_placed (a := here.activation) numbered has types).then_assigned
      before
    have lengths := arity types List.mem_cons_self
    obtain ⟨placedArm, -⟩ := elaborateArm_placed placing started.numbered growing consistent
      started (by simp [armOperands, lengths]) run
    have room : s₁.frame.Has temps := fun id member =>
      Nat.lt_of_lt_of_le (has id member) placedArm.grows.slots
    exact placedArm.trans (ih placedArm.numbered room
      (fun ts member => arity ts (List.mem_cons_of_mem _ member)) runRest)

theorem elaborateDispatch_placed {call : CallSyntax} {operands : List Typed.Expr}
    {types : List Ty} {s₀ : PassState} (growing : elaborate.Growing)
    (consistent : cx.definitions.Consistent) (placed : Placed here.activation s₀ operands s)
    (arity : operands.length = types.length)
    (h : elaborateDispatch cx elaborate here call operands types s = some (l, s')) :
    Placed here.activation s₀ [l.code] s' ∧ l.code.ty = l.ends.normal := by
  rcases elaborateDispatch_steps h with ⟨-, single⟩ | ⟨-, ⟨n, -, rfl, rfl⟩ | ⟨chosen, temps, s₁,
    arms, s₂, expanded, made, run, rfl, rfl⟩⟩
  · exact elaborateArm_placed placing numbered growing consistent placed arity single
  · exact ⟨placed.failed _, rfl⟩
  · obtain ⟨placedTemps, has⟩ := tempSlots_placed (a := here.activation) numbered made
    have lengths : ∀ ts ∈ chosen, ts.length = temps.length := by
      intro ts member
      rw [armsWithin_length expanded ts member, tempSlots_length made]
    have placedArms := elaborateArms_placed placing placedTemps.numbered growing consistent has
      lengths run
    refine ⟨Placed.then_assigned ?_ _, rfl⟩
    refine ((placed.trans placedTemps).trans placedArms).node ?_ ?_
    · simp [Elaborated.ofNode, Typed.Expr.points, Typed.Node.points, Typed.armsPoints_map,
        Function.comp_def]
    · intro σ _ fits each
      refine ⟨fun id member => ?_, ?_, ?_⟩
      · exact Nat.lt_of_lt_of_le (has id member)
          (Nat.le_trans placedArms.grows.slots fits.slots)
      · exact Typed.listScoped_iff.2 fun c member => each c (by simp [member])
      · refine Typed.armsScoped_iff.2 fun arm member => each arm.body ?_
        obtain ⟨full, listed, rfl⟩ := List.mem_map.1 member
        exact List.mem_append_right _ (List.mem_map.2 ⟨full, listed, rfl⟩)

/-- A call has as many types as operands, because every operand ends normally. -/
theorem elaborateCall_placed {id : NodeId} {receiver : Option Expr} {name : String}
    {nameSpan : Span} {written : List Expr} {block : Option Block}
    (growing : elaborate.Growing) (consistent : cx.definitions.Consistent)
    (h : elaborateCall cx elaborate here id receiver name nameSpan written block s =
      some (l, s')) :
    Placed here.activation s [l.code] s' ∧ l.code.ty = l.ends.normal := by
  obtain ⟨parts, ends, s₁, run, rest⟩ := elaborateCall_steps h
  obtain ⟨placed, typed⟩ := elaborateParts_placed placing numbered rfl run
  rcases rest with ⟨stops, rfl, rfl⟩ | ⟨falls, sent, runSent, rfl⟩
  · refine ⟨placed.node (Typed.ofParts_points parts _) fun _ _ _ each => ofParts_scoped _ each, ?_⟩
    have none : ends.normal = none := by simpa [Completions.fallsThrough] using stops
    rw [ofParts_ty, none]
  · have sentPlaced : Placed here.activation s (sentOperands here receiver parts) s₁ := by
      rw [sentOperands]
      split
      · exact placed.leaf_cons rfl fun σ inside _ => inside.self
      · exact placed
    have sentTyped : ∀ c ∈ sentOperands here receiver parts, c.ty.isSome = true := by
      intro c member
      rw [sentOperands] at member
      split at member
      · rcases List.mem_cons.1 member with rfl | member
        · rfl
        · exact typed falls c member
      · exact typed falls c member
    obtain ⟨placedSent, typedSent⟩ := elaborateDispatch_placed placing placed.numbered growing
      consistent sentPlaced (filterMap_length sentTyped) runSent
    refine ⟨placedSent, ?_⟩
    rw [typedSent]
    exact (Completions.andThen_normal _ falls).symm

end Constructs

/-- Each construct keeps the property, given that its parts do. -/
theorem elaborateForm_placing {cx : Setting} {elaborate : Elaborate}
    (consistent : cx.definitions.Consistent) (growing : elaborate.Growing)
    (placing : elaborate.Placing) : Elaborate.Placing (elaborateForm cx elaborate) := by
  intro here e s l s' numbered h
  simp only [elaborateForm] at h
  cases form : e.form with
  | literal _ | defMethod _ | defClass _ | defLib _ =>
    simp only [form] at h
    obtain ⟨rfl, rfl⟩ := pure_eq_some.1 h
    exact ⟨(Placed.refl numbered).node rfl fun _ _ _ _ => trivial, rfl⟩
  | self =>
    simp only [form] at h
    obtain ⟨rfl, rfl⟩ := pure_eq_some.1 h
    exact ⟨(Placed.refl numbered).node rfl fun σ inside _ _ => inside.self, rfl⟩
  | read v =>
    simp only [form] at h
    exact elaborateRead_placed numbered h
  | assign v _ value =>
    simp only [form] at h
    exact elaborateAssignment_placed placing numbered h
  | call receiver name nameSpan arguments block =>
    simp only [form] at h
    exact elaborateCall_placed placing numbered growing consistent h
  | yield arguments =>
    simp only [form] at h
    exact elaborateYield_placed placing numbered h
  | «return» value | «break» value =>
    simp only [form] at h
    exact elaborateExit_placed placing numbered h
  | conditional kind condition consequent alternative =>
    simp only [form] at h
    exact elaborateConditional_placed placing numbered h
  | «while» condition body =>
    simp only [form] at h
    exact elaborateWhile_placed placing numbered h
  | logical connective left right =>
    simp only [form] at h
    exact elaborateLogical_placed placing numbered h
  | not operand =>
    simp only [form] at h
    exact elaborateNot_placed placing numbered h

/-- Every elaboration of a pass keeps exits, slots and methods in scope. -/
theorem elaborateExpr_placing {cx : Setting} (consistent : cx.definitions.Consistent)
    (fuel : Nat) : Elaborate.Placing (elaborateExpr cx fuel) := by
  induction fuel with
  | zero =>
    intro here e s l s' numbered h
    cases h
  | succ fuel ih => exact elaborateForm_placing consistent (elaborateExpr_grows cx fuel) ih

end TypedBlocks.Inference

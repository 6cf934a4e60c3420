import TypedBlocks.Proofs.FilledSlots
import TypedBlocks.Proofs.LaidScopes

/-!
# Slots of elaborated scopes

A call of a method that yields opens a scope inside the scope of the call. The block given to the call
is entered from inside that scope, yet its own scope is nested in the one of the call, beside the scope
of the expanded method. So the code of each construct is laid out in scopes if its parts are.
-/
namespace TypedBlocks.Inference

open Typed (InstanceId SlotId Slot)
open Pass

/-- The scopes of the expanded methods that a body stands in, the innermost first. A block stands in
what is around the call that it is given to. -/
def BodyContext.homes : BodyContext → List ScopeChain
  | ⟨_, _, _, _, _, .body⟩ => []
  | ⟨path, _, _, _, _, .expansion _ _ definer⟩ => path :: definer.homes
  | ⟨_, _, _, _, _, .block _ definer⟩ => definer.homes

section Bodies

variable {live : LiveScopes} {A : Typed.SlotSet}

theorem BodyContext.homes_methodBody : (a : BodyContext) → a.methodBody.homes = a.homes
  | ⟨_, _, _, _, _, .body⟩ => rfl
  | ⟨_, _, _, _, _, .expansion _ _ _⟩ => rfl
  | ⟨_, _, _, _, _, .block _ definer⟩ => homes_methodBody definer

theorem BodyContext.homes_withTarget (a : BodyContext) (exit : ExitTarget) (run : RunTarget) :
    (a.withTarget exit run).homes = a.homes := by
  rcases a with ⟨path, name, selfType, selfSlot, targets, _ | _ | _⟩ <;> rfl

/-- A block is nested in the method that it stands in. -/
theorem BodyContext.Lives.methodBody_path : {a : BodyContext} → a.Lives live A →
    pathKind a.methodBody.path <:+ pathKind a.path
  | ⟨_, _, _, _, _, .body⟩, _ => List.suffix_refl _
  | ⟨_, _, _, _, _, .expansion _ _ _⟩, _ => List.suffix_refl _
  | ⟨_, _, _, _, _, .block _ definer⟩, ⟨_, _, nested, outer⟩ => by
    rw [nested]
    exact (methodBody_path (a := definer) outer).trans (List.suffix_cons _ _)

/-- The scope that a name belongs to is around the body. -/
theorem BodyContext.Lives.scopeOf_around {captures : CaptureTable} {name : String} :
    {a : BodyContext} → a.Lives live A →
      live.around a.path (pathKind (a.scopeOf captures name).1)
  | ⟨_, _, _, _, _, .body⟩, lives => ⟨lives.1, List.suffix_refl _⟩
  | ⟨_, _, _, _, _, .expansion _ _ _⟩, lives => ⟨lives.1, List.suffix_refl _⟩
  | ⟨path, methodName, selfType, selfSlot, targets, .block id definer⟩, lives => by
    refine ⟨lives.scopeOf, ?_⟩
    obtain ⟨-, -, nested, outer⟩ := lives
    have further : pathKind (definer.scopeOf captures name).1 <:+ pathKind path :=
      (scopeOf_around (a := definer) outer).2.trans (nested ▸ List.suffix_cons _ _)
    rw [BodyContext.scopeOf]
    split
    · exact List.suffix_refl _
    · split
      · exact List.suffix_refl _
      · split
        · exact List.suffix_refl _
        · exact further

/-- The expansion around a block given to it stands directly in the body around the block. -/
theorem BodyContext.Lives.yielding {a definer : BodyContext} {block : Block} {site : SiteId}
    (lives : a.Lives live A) (origin : a.methodBody.origin = .expansion block site definer) :
    ∃ id key, a.homes = (.inline id key :: definer.path) :: definer.homes ∧
      live (pathKind (.inline id key :: definer.path)) ∧
      pathKind definer.path <:+ pathKind a.path := by
  have around := lives.methodBody_path
  have homes := a.homes_methodBody
  have body := lives.methodBody
  rcases hb : a.methodBody with ⟨path, name, selfType, selfSlot, targets, o⟩
  rw [hb] at body origin around homes
  cases origin
  obtain ⟨there, -, ⟨id, key, rfl⟩, -, -⟩ := body
  exact ⟨id, key, homes.symm, there, suffix_of_cons around⟩

end Bodies

/-- An elaboration is at a place with the scopes that are live there. -/
structure Seated (cx : Setting) (live : LiveScopes) (here : Place) (s : PassState) : Prop where
  place : here.Known cx .all
  known : s.Known cx .all
  innermost : here.activation.Innermost live
  lives : here.activation.Lives live (s.frame.Kept live)

/-- A run of elaboration at a place has made code that is laid out in scopes. -/
structure Lays (live : LiveScopes) (here : Place) (s : PassState) (codes : List Typed.Expr)
    (s' : PassState) : Prop where
  advances : s.Advances LaidMethod s'
  laid : ∀ c ∈ codes, Laid s'.frame live here.activation.path here.activation.homes c

/-- An elaboration whose code is laid out in scopes. -/
structure Elaborate.Laying (cx : Setting) (elaborate : Elaborate) : Prop where
  growing : elaborate.Growing
  knowing : elaborate.Knowing cx .all
  lays : ∀ live here e s l s', Seated cx live here s → elaborate here e s = some (l, s') →
    Lays live here s [l.code] s'

section States

variable {cx : Setting} {live : LiveScopes} {here : Place} {s s₁ s' : PassState}
  {codes ds : List Typed.Expr} {code : Typed.Expr} {ty : Option Ty} {n : Typed.Node}

namespace Seated

variable (seated : Seated cx live here s)

include seated

theorem next (grows : s.Grows s') (known : s'.Known cx .all) : Seated cx live here s' :=
  { seated with
    known
    lives := seated.lives.mono fun _ kept => kept.mono grows.labels fun _ => id }

theorem assigned {keys : List ScopeVar} (known : ∀ k ∈ keys, k.Known cx .all) :
    Seated cx live here { s with assigned := keys } :=
  { seated with known := seated.known.withAssigned known }

theorem inLoop (id : NodeId) (loop : LoopId) : Seated cx live (here.inLoop id loop) s where
  place := seated.place.inLoop id loop
  known := seated.known
  innermost := seated.innermost
  lives := seated.lives.withTarget _ _

end Seated

namespace Lays

theorem refl (s : PassState) : Lays live here s [] s := ⟨.refl s, nofun⟩

theorem after (lays : Lays live here s codes s₁) (advances : s₁.Advances LaidMethod s') :
    Lays live here s codes s' where
  advances := lays.advances.trans advances
  laid c member := (lays.laid c member).mono advances.grows.labels

theorem append (first : Lays live here s codes s₁) (second : Lays live here s₁ ds s') :
    Lays live here s (codes ++ ds) s' where
  advances := first.advances.trans second.advances
  laid c member := (List.mem_append.1 member).elim ((first.after second.advances).laid c)
    (second.laid c)

theorem assigned (lays : Lays live here s codes s') (keys : List ScopeVar) :
    Lays live here s codes { s' with assigned := keys } := lays.after (.assigned s' keys)

/-- Code is put together from the code at hand. -/
theorem node (lays : Lays live here s codes s') (stays : n.enters? = none)
    (names : ∀ x ∈ n.names, s'.frame.Kept live x)
    (writes : ∀ x ∈ n.writes, s'.frame.Kept (live.around here.activation.path) x)
    (parts : ∀ d ∈ n.staying, d ∈ codes) : Lays live here s [⟨ty, n⟩] s' where
  advances := lays.advances
  laid := List.forall_mem_singleton.2
    (.plain stays names writes fun d member => lays.laid d (parts d member))

/-- A node that uses no slots itself. -/
theorem plain (lays : Lays live here s codes s') (names : n.names = [])
    (writes : n.writes = []) (parts : ∀ d ∈ n.staying, d ∈ codes)
    (stays : n.enters? = none) : Lays live here s [⟨ty, n⟩] s' :=
  lays.node stays (by simp [names]) (by simp [writes]) parts

theorem ofParts (lays : Lays live here s codes s') :
    Lays live here s [Typed.Expr.ofParts codes ty] s' := by
  have sequence : Lays live here s [⟨ty, .sequence codes⟩] s' :=
    lays.plain rfl rfl (fun d member => by
      simpa [Typed.Node.staying, Typed.Node.parts, Typed.Node.operands, Typed.Node.landing?]
        using member) rfl
  unfold Typed.Expr.ofParts
  split
  · rename_i only
    exact ⟨lays.advances, List.forall_mem_singleton.2 ((lays.laid only List.mem_cons_self).of_node rfl)⟩
  · exact sequence

end Lays

end States

section Constructs

variable {cx : Setting} {live : LiveScopes} {elaborate : Elaborate} {here : Place}
  {s s' : PassState} {l : Elaborated} (laying : elaborate.Laying cx)
  (seated : Seated cx live here s)

section Sequences

include laying seated

theorem elaborateParts_lays {before ends : Completions} {es : List Expr}
    {codes : List Typed.Expr}
    (h : elaborateParts elaborate here before es s = some ((codes, ends), s')) :
    Lays live here s codes s' := by
  induction es generalizing before codes s with
  | nil =>
    obtain ⟨rfl, -, rfl⟩ := elaborateParts_nil_steps h
    exact .refl s'
  | cons e es ih =>
    obtain ⟨first, s₁, run, ⟨-, rest, runRest, rfl⟩ | ⟨-, rfl, -, rfl⟩⟩ := elaborateParts_cons_steps h
    · have lays := laying.lays _ _ _ _ _ _ seated run
      have known := (laying.knowing _ _ _ _ _ trivial seated.place seated.known run).1
      exact lays.append (ih (seated.next lays.advances.grows known) runRest)
    · exact laying.lays _ _ _ _ _ _ seated run

theorem elaborateBody_lays {body : List Expr}
    (h : elaborateBody elaborate here body s = some (l, s')) : Lays live here s [l.code] s' := by
  rcases elaborateBody_steps h with ⟨-, rfl, rfl⟩ | ⟨-, parts, ends, run, rfl⟩
  · exact (Lays.refl s').plain rfl rfl nofun rfl
  · exact (elaborateParts_lays laying seated run).ofParts

/-- The place after some parts. -/
theorem Seated.afterParts {ends : Completions} {es : List Expr} {codes : List Typed.Expr}
    (h : elaborateParts elaborate here (Completions.ofNormal Ty.nil) es s = some ((codes, ends), s')) :
    Seated cx live here s' ∧ ∀ c ∈ codes, c.AllTypes (Ty.Known .all) := by
  obtain ⟨known, -, types⟩ := elaborateParts_known laying.knowing seated.place seated.known
    (Completions.ofNormal_all .nil) (fun _ _ => trivial) h
  exact ⟨seated.next (elaborateParts_grows laying.growing h) known, types⟩

theorem Seated.afterBody {body : List Expr}
    (h : elaborateBody elaborate here body s = some (l, s')) : Seated cx live here s' :=
  seated.next (elaborateBody_grows laying.growing h)
    (elaborateBody_known laying.knowing seated.place seated.known (fun _ _ => trivial) h).1

theorem Seated.afterOne {e : Expr} (h : elaborate here e s = some (l, s')) :
    Seated cx live here s' :=
  seated.next (laying.growing _ _ _ _ _ h)
    (laying.knowing _ _ _ _ _ trivial seated.place seated.known h).1

end Sequences

theorem failed_lays {s s' : PassState} (grows : s.Grows s') (methods : s'.methods = s.methods)
    (instances : s'.instances = s.instances) :
    Lays live here s [Elaborated.failed.code] s' :=
  ((Lays.refl s).after (.of_step grows methods instances)).plain rfl rfl nofun rfl

section Leaves

include seated

theorem elaborateRead_lays {span : Span} {v : Variable}
    (h : elaborateRead cx here span v s = some (l, s')) : Lays live here s [l.code] s' := by
  have nothing : Lays live here s [] s := .refl s
  rcases elaborateRead_steps h with ⟨-, rfl, rfl⟩ | ⟨e, -, rfl, rfl⟩ | ⟨-, c, -, rfl, rfl⟩ |
    ⟨-, rfl, rfl⟩ | ⟨-, -, rfl, rfl⟩ | ⟨-, rfl, rfl⟩
  · have scope := seated.place.scopeVar v.name
    have holds := lookedUp_holds seated.known.slots scope
      (here.activation.scopeOf cx.captures v.name).2
    refine (nothing.after (.of_step (readLocal_grows _ _) rfl rfl)).node rfl ?_ nofun nofun
    exact List.forall_mem_singleton.2 (holds.kept seated.lives.scopeOf)
  · exact failed_lays (grows_with_error s e) rfl rfl
  · refine nothing.node rfl ?_ nofun nofun
    exact List.forall_mem_singleton.2 seated.lives.self
  all_goals exact nothing.plain rfl rfl nofun rfl

include laying

theorem elaborateAssignment_lays {span : Span} {v : Variable} {value : Expr}
    (h : elaborateAssignment cx elaborate here span v value s = some (l, s')) :
    Lays live here s [l.code] s' := by
  obtain ⟨first, s₁, run, ⟨-, rfl, rfl⟩ | ⟨t, -, rest⟩⟩ := elaborateAssignment_steps h
  · exact laying.lays _ _ _ _ _ _ seated run
  · have lays := laying.lays _ _ _ _ _ _ seated run
    have seated₁ := seated.afterOne laying run
    rcases rest with ⟨-, rfl, rfl⟩ | ⟨-, -, rfl, rfl⟩ | ⟨-, c, -, rfl, rfl⟩ | ⟨-, rfl, rfl⟩ |
      ⟨-, rfl, rfl⟩
    · have scope := seated₁.place.scopeVar v.name
      have holds := lookedUp_holds seated₁.known.slots scope
        (here.activation.scopeOf cx.captures v.name).2
      have around : live.around here.activation.path
          (pathKind (here.activation.scopeOf cx.captures v.name).1) := seated₁.lives.scopeOf_around
      exact (lays.after (.of_step (assignLocal_grows _ _ _) rfl rfl)).node rfl
        (List.forall_mem_singleton.2 (holds.kept around.1))
        (List.forall_mem_singleton.2 (holds.kept around)) (fun d => id)
    · exact ⟨lays.advances.trans (.of_step (grows_with_error _ _) rfl rfl),
        (failed_lays (grows_with_error _ _) rfl rfl).laid⟩
    · refine (lays.after (.of_step (grows_tables _ (.extendLayout _ _ _ _)) rfl rfl)).node rfl ?_
        nofun (fun d => id)
      exact List.forall_mem_singleton.2 seated₁.lives.self
    · exact (lays.after (.of_step (grows_tables _ (.extendGlobal _ _ _)) rfl rfl)).plain rfl rfl
        (fun d => id) rfl
    · exact (lays.after (.of_step (grows_tables _ (.extendConstant _ _ _)) rfl rfl)).plain rfl rfl
        (fun d => id) rfl

end Leaves

section Control

include laying seated

theorem elaborateExit_lays {number : NodeId} {span : Span} {keyword : String} {value : Option Expr}
    (h : elaborateExit cx elaborate here number span keyword value s = some (l, s')) :
    Lays live here s [l.code] s' := by
  obtain ⟨first, s₁, run, rest⟩ := elaborateExit_steps h
  have lays : Lays live here s [first.code] s₁ := by
    cases value with
    | none =>
      obtain ⟨rfl, rfl⟩ := pure_eq_some.1 run
      exact (Lays.refl s).plain rfl rfl nofun rfl
    | some e => exact laying.lays _ _ _ _ _ _ seated run
  rcases rest with ⟨-, rfl, rfl⟩ | ⟨t, -, ⟨f, -, rfl, rfl⟩ | ⟨b, -, rfl, rfl⟩ | ⟨-, rfl, rfl⟩⟩
  · exact lays
  · exact lays.plain rfl rfl (fun d => id) rfl
  · exact lays.plain rfl rfl (fun d => id) rfl
  · exact ⟨lays.advances.trans (.of_step (grows_with_error _ _) rfl rfl),
      (failed_lays (grows_with_error _ _) rfl rfl).laid⟩

theorem elaborateNot_lays {operand : Expr}
    (h : elaborateNot elaborate here operand s = some (l, s')) : Lays live here s [l.code] s' := by
  obtain ⟨first, run, ⟨-, rfl⟩ | ⟨-, rfl⟩⟩ := elaborateNot_steps h
  · exact laying.lays _ _ _ _ _ _ seated run
  · exact (laying.lays _ _ _ _ _ _ seated run).plain rfl rfl (fun d => id) rfl

theorem elaborateConditional_lays {kind : ConditionKind} {condition : Expr}
    {consequent : List Expr} {alternative : Option (List Expr)}
    (h : elaborateConditional elaborate here kind condition consequent alternative s =
      some (l, s')) : Lays live here s [l.code] s' := by
  obtain ⟨c, s₁, run, ⟨-, rfl, rfl⟩ | ⟨-, first, s₂, second, s₃, runFirst, runSecond, rfl,
    rfl⟩⟩ := elaborateConditional_steps h
  · exact laying.lays _ _ _ _ _ _ seated run
  · have lays := laying.lays _ _ _ _ _ _ seated run
    have seated₁ := seated.afterOne laying run
    have laysFirst := elaborateBody_lays laying seated₁ runFirst
    have seated₂ := (seated₁.afterBody laying runFirst).assigned seated₁.known.assigned
    have laysSecond := elaborateBody_lays laying seated₂ runSecond
    have whole := ((lays.append laysFirst).assigned s₁.assigned).append laysSecond
    refine (whole.assigned _).plain rfl rfl (fun d member => ?_) rfl
    have among : d = c.code ∨ d = first.code ∨ d = second.code := by
      cases kind
      · simpa [Typed.Node.staying, Typed.Node.parts, Typed.Node.operands, Typed.Node.landing?,
          branches] using member
      · simpa [Typed.Node.staying, Typed.Node.parts, Typed.Node.operands, Typed.Node.landing?,
          branches, or_comm (a := d = second.code)] using member
    simpa using among

theorem elaborateWhile_lays {id : NodeId} {condition : Expr} {body : List Expr}
    (h : elaborateWhile elaborate here id condition body s = some (l, s')) :
    Lays live here s [l.code] s' := by
  obtain ⟨c, s₁, run, ⟨-, rfl, rfl⟩ | ⟨-, b, s₂, runBody, rfl, rfl⟩⟩ := elaborateWhile_steps h
  · exact laying.lays _ _ _ _ _ _ seated run
  · have lays := laying.lays _ _ _ _ _ _ seated run
    have seated₁ := seated.afterOne laying run
    have counted : s₁.Advances LaidMethod { s₁ with nextLoop := s₁.nextLoop + 1 } :=
      .of_step (grows_loop s₁) rfl rfl
    have known : PassState.Known cx .all { s₁ with nextLoop := s₁.nextLoop + 1 } :=
      { seated₁.known with }
    have inner := elaborateBody_lays laying ((seated₁.next counted.grows known).inLoop id _) runBody
    have inner : Lays live here _ [b.code] s₂ :=
      ⟨inner.advances, BodyContext.homes_withTarget here.activation _ _ ▸ inner.laid⟩
    refine (((lays.after counted).append inner).assigned s₁.assigned).plain rfl rfl
      (fun d member => ?_) rfl
    simpa [Typed.Node.staying, Typed.Node.parts, Typed.Node.operands, Typed.Node.landing?]
      using member

theorem elaborateLogical_lays {connective : Connective} {left right : Expr}
    (h : elaborateLogical elaborate here connective left right s = some (l, s')) :
    Lays live here s [l.code] s' := by
  obtain ⟨first, s₁, run, ⟨-, rfl, rfl⟩ | ⟨t, second, s₂, -, runRight, rfl, rfl⟩⟩ :=
    elaborateLogical_steps h
  · exact laying.lays _ _ _ _ _ _ seated run
  · have lays := laying.lays _ _ _ _ _ _ seated run
    have laysRight := laying.lays _ _ _ _ _ _ (seated.afterOne laying run) runRight
    have whole := (lays.append laysRight).assigned s₁.assigned
    cases connective <;> exact whole.plain rfl rfl (fun d member => member) rfl

end Control

section Methods

variable {call : CallSyntax} {arguments operands : List Typed.Expr} {types : List Ty}

include laying

/-- A method that a call makes present is laid out from its own scope on. -/
theorem elaborateMethod_lays (known : s.Known cx .all) {depth : Nat}
    (shallow : depth ≤ cx.limits.maxInlineDepth) {key : Instantiation} {id : InstanceId}
    (callee : key.Known cx .all) (h : elaborateMethod cx elaborate depth key s = some (id, s')) :
    s.Advances LaidMethod s' := by
  rcases elaborateMethod_steps h with ⟨-, rfl⟩ | ⟨absent, -, ⟨missing, -⟩ | ⟨m, parameters, s₁,
    body, s₂, -, bound, run, rfl⟩⟩
  · exact .refl _
  · obtain ⟨m, found, -⟩ := callee.arity
    rw [missing] at found
    cases found
  · have place := methodPlace_known callee m shallow s
    have scope := place.activation.path.mono shallow
    have self : ScopeVar.Known cx .all ⟨[.instance key], "self"⟩ := scope
    have entered := enteredMethod_known known callee absent scope
    have binds := bindVars_binds scope entered callee.arguments bound
    have holds := (selfBound_holds (t := key.selfType) FrameSlots.Keyed.empty self).mono
      (bindVars_grows bound).labels
    have seated : Seated cx (.only [.instance key]) (methodPlace key m depth s) s₁ :=
      { place
        known := entered.bindVars scope (fun _ _ => trivial) callee.arguments bound
        innermost := fun q there _ => there
        lives := ⟨rfl, holds.kept rfl, trivial⟩ }
    have lays := elaborateBody_lays laying seated run
    obtain ⟨methods, instances⟩ := bindVars_keeps bound
    have begun : (enteredMethod key s).Advances LaidMethod s₁ :=
      .of_step (bindVars_grows bound) methods instances
    refine .leftMethod (begun.trans lays.advances) (elaborateMethod_grows laying.growing h)
      ⟨s₂.frame, .instance key, List.forall_mem_cons.2 ⟨?_, fun x member => ?_⟩,
        lays.laid _ List.mem_cons_self⟩
    · exact (holds.mono lays.advances.grows.labels).kept rfl
    · obtain ⟨name, own⟩ := binds.slots x member
      exact (own.mono lays.advances.grows.labels).kept rfl

include seated

/-- The body of an expanded method is laid out in a scope inside the scope of the call. -/
theorem expandCall_lays {m : MethodEntry} {key : Instantiation} {block : Block}
    {receiver : Typed.Expr} (callee : key.Known cx .all)
    (given : Lays live here s (receiver :: arguments) s)
    (h : expandCall cx elaborate here call m key block receiver arguments s = some (l, s')) :
    Lays live here s [l.code] s' := by
  rcases expandCall_steps h with ⟨-, rfl, rfl⟩ | ⟨shallow, parameters, s₁, body, s₂, bound, run,
    rfl, rfl⟩
  · exact failed_lays (grows_with_error _ _) rfl rfl
  · have place : (expansionPlace here call m key block s).Known cx .all :=
      expansionPlace_known seated.place trivial callee
        ⟨trivial, fun _ _ => trivial, fun _ _ => trivial⟩ shallow m s
    have scope := place.activation.path.mono place.depth
    have self : ScopeVar.Known cx .all ⟨expansionPath here call key, "self"⟩ := scope
    have entered : (enteredExpansion here call key s).Known cx .all :=
      enteredExpansion_known seated.known scope
    have binds := bindVars_binds scope entered callee.arguments bound
    have grows := (enteredExpansion_grows here call key s).trans (bindVars_grows bound)
    have admits : live.Admits (expansionPath here call key) := seated.innermost.admits _
    have holds := (selfBound_holds (t := key.selfType) seated.known.slots self).mono
      (bindVars_grows bound).labels
    have seated₁ : Seated cx (live.enter (expansionPath here call key))
        (expansionPlace here call m key block s) s₁ :=
      { place
        known := entered.bindVars scope (fun _ _ => trivial) callee.arguments bound
        innermost := fun q there within => admits.innermost there within
        lives := seated.lives.expansion seated.innermost
          (fun x kept => kept.mono grows.labels fun _ => .inl) (holds.kept (.inr rfl)) _ _ _ }
    have lays := elaborateBody_lays laying seated₁ run
    have known₂ := (seated₁.afterBody laying run).known
    obtain ⟨methods, instances⟩ := bindVars_keeps bound
    have begun : s.Advances LaidMethod s₁ := .of_step grows methods instances
    have advances := begun.trans lays.advances
    have own : ∀ x ∈ (expansionSelf here call key s).1 :: parameters,
        ∃ name, s₂.frame.Holds cx x ⟨expansionPath here call key, name⟩ := by
      refine List.forall_mem_cons.2 ⟨⟨_, holds.mono lays.advances.grows.labels⟩, fun x member => ?_⟩
      obtain ⟨name, own⟩ := binds.slots x member
      exact ⟨name, own.mono lays.advances.grows.labels⟩
    refine ⟨advances.trans (.assigned _ _), List.forall_mem_singleton.2 (.call rfl (fun d member =>
      (given.after advances).laid d member) ⟨admits, fun x member => ?_, fun x member => ?_⟩
      (lays.laid _ List.mem_cons_self))⟩
    · obtain ⟨name, own⟩ := own x member
      exact own.kept (.inr rfl)
    · rcases List.mem_append.1 member with first | within
      · obtain ⟨name, own⟩ := own x first
        exact own.within (List.suffix_refl _)
      · obtain ⟨k, own, nested⟩ := known₂.slots.mem_slotsWithin scope.proper within
        exact own.within nested

variable (consistent : cx.definitions.Consistent)

theorem elaborateMethodCall_lays {m : MethodEntry} {receiver : Typed.Expr} {receiverType : Ty}
    (callee : (calledKey m receiverType types).Known cx .all)
    (given : Lays live here s (receiver :: arguments) s)
    (h : elaborateMethodCall cx elaborate here call m receiver receiverType arguments types s =
      some (l, s')) : Lays live here s [l.code] s' := by
  have sent : Lays live here s (calledReceiver m receiver :: arguments) s := by
    rw [calledReceiver]
    split
    · exact given
    · have main : Lays live here s [⟨some Ty.main, .mainObject⟩] s :=
        (Lays.refl s).plain rfl rfl (by rintro _ ⟨⟩) rfl
      exact ⟨given.advances, List.forall_mem_cons.2 ⟨main.laid _ List.mem_cons_self,
        fun c member => given.laid c (List.mem_cons_of_mem _ member)⟩⟩
  rcases elaborateMethodCall_steps h with ⟨-, block, -, expanded⟩ | ⟨-, -, rfl, rfl⟩ |
    ⟨-, id, made, rfl⟩
  · exact expandCall_lays laying seated callee sent expanded
  · exact failed_lays (grows_with_error _ _) rfl rfl
  · have advances := elaborateMethod_lays laying seated.known seated.place.depth callee made
    exact (sent.after advances).plain rfl rfl (fun d member => by
      simpa [Typed.Node.staying, Typed.Node.parts, Typed.Node.operands, Typed.Node.landing?]
        using member) rfl

include consistent

theorem elaborateConstruct_lays {c : String} (known : ∀ t ∈ types, t.Known .all)
    (given : Lays live here s arguments s)
    (h : elaborateConstruct cx elaborate here call c arguments types s = some (l, s')) :
    Lays live here s [l.code] s' := by
  have parts (initializer : Option InstanceId) :
      ∀ d ∈ (Typed.Node.construct c initializer arguments).staying, d ∈ arguments := by
    simp [Typed.Node.staying, Typed.Node.parts, Typed.Node.operands, Typed.Node.landing?]
  rcases elaborateConstruct_steps h with ⟨id, instanceId, chosen, made, rfl⟩ |
    ⟨-, ⟨-, rfl, rfl⟩ | ⟨-, rfl, rfl⟩⟩
  · have callee : Instantiation.Known cx .all ⟨id, s.tables.objectTy c, types⟩ :=
      ⟨seated.known.tables.objectTy trivial, known, initializer?_callable consistent chosen⟩
    have advances := elaborateMethod_lays laying seated.known seated.place.depth callee made
    exact (given.after advances).plain rfl rfl (parts _) rfl
  · exact given.plain rfl rfl (parts _) rfl
  · exact failed_lays (grows_with_error _ _) rfl rfl

theorem elaborateArm_lays (known : ∀ t ∈ types, t.Known .all)
    (given : Lays live here s operands s)
    (h : elaborateArm cx elaborate here call operands types s = some (l, s')) :
    Lays live here s [l.code] s' := by
  rcases elaborateArm_steps h with ⟨e, -, rfl, rfl⟩ | ⟨receiverType, argumentTypes, rfl, rest⟩
  · exact failed_lays (grows_with_error _ _) rfl rfl
  · have arguments : Lays live here s (operands.drop 1) s :=
      ⟨given.advances, fun c member => given.laid c (List.mem_of_mem_drop member)⟩
    have whole : Lays live here s (operands.headD Typed.Expr.nil :: operands.drop 1) s := by
      cases operands with
      | nil => exact (Lays.refl s).plain rfl rfl nofun rfl
      | cons c operands => exact given
    rcases rest with ⟨p, -, rfl, rfl⟩ | ⟨c, -, made⟩ | ⟨lib, name, -, rfl, rfl⟩ |
      ⟨id, m, callee, found, called⟩
    · exact whole.plain rfl rfl (fun d member => by
        simpa [Typed.Node.staying, Typed.Node.parts, Typed.Node.operands, Typed.Node.landing?]
          using member) rfl
    · exact elaborateConstruct_lays laying seated consistent
        (fun t member => known t (List.mem_cons_of_mem _ member)) arguments made
    · exact arguments.plain rfl rfl (fun d member => by
        simpa [Typed.Node.staying, Typed.Node.parts, Typed.Node.operands, Typed.Node.landing?]
          using member) rfl
    · obtain ⟨-, key⟩ := calledKey_known consistent known callee found
      exact elaborateMethodCall_lays laying seated key whole called

theorem elaborateArms_lays {temps : List SlotId} {before : List ScopeVar} {chosen : List (List Ty)}
    {arms : List (Typed.Arm × Completions × List ScopeVar)}
    (start : ∀ k ∈ before, k.Known cx .all) (kept : ∀ x ∈ temps, s.frame.Kept live x)
    (known : ∀ ts ∈ chosen, ∀ t ∈ ts, t.Known .all)
    (h : elaborateArms cx elaborate here call temps before chosen s = some (arms, s')) :
    Lays live here s (arms.map (·.1.body)) s' := by
  induction chosen generalizing s arms with
  | nil =>
    obtain ⟨rfl, rfl⟩ := elaborateArms_nil_steps h
    exact .refl s'
  | cons types rest ih =>
    obtain ⟨arm, s₁, others, run, runRest, rfl⟩ := elaborateArms_cons_steps h
    rw [List.forall_mem_cons] at known
    have operands : Lays live here { s with assigned := before } (armOperands temps types)
        { s with assigned := before } := by
      refine ⟨.refl _, List.forall_mem_map.2 fun b member => ?_⟩
      exact .plain rfl (List.forall_mem_singleton.2 (kept b.1 (List.of_mem_zip member).1)) nofun nofun
    have seated₀ := seated.assigned start
    have lays := elaborateArm_lays laying seated₀ consistent known.1 operands run
    have known₁ := (elaborateArm_known (Vocabulary.all_covers cx) laying.knowing seated.place
      seated₀.known consistent trivial (fun b _ => ⟨trivial, fun _ _ => trivial, fun _ _ => trivial⟩)
      known.1 (armOperands_known known.1) run).1
    have lays : Lays live here s [arm.code] s₁ :=
      ⟨(PassState.Advances.assigned s before).trans lays.advances, lays.laid⟩
    exact lays.append (ih (seated.next lays.advances.grows known₁)
      (fun x member => (kept x member).mono lays.advances.grows.labels fun _ => id) known.2 runRest)

theorem elaborateDispatch_lays (known : ∀ t ∈ types, t.Known .all)
    (given : Lays live here s operands s)
    (h : elaborateDispatch cx elaborate here call operands types s = some (l, s')) :
    Lays live here s [l.code] s' := by
  rcases elaborateDispatch_steps h with ⟨-, single⟩ | ⟨-, ⟨n, -, rfl, rfl⟩ | ⟨chosen, temps, s₁,
    arms, s₂, expanded, made, run, rfl, rfl⟩⟩
  · exact elaborateArm_lays laying seated consistent known given single
  · exact failed_lays (grows_with_error _ _) rfl rfl
  · obtain ⟨methods, instances⟩ := tempSlots_keeps made
    have begun : s.Advances LaidMethod s₁ := .of_step (tempSlots_grows made) methods instances
    have seated₁ := seated.next begun.grows (seated.known.tempSlots made)
    have members : ∀ ts ∈ chosen, ∀ t ∈ ts, t.Known .all := armsWithin_known known expanded
    have lays := elaborateArms_lays laying seated₁ consistent seated₁.known.assigned
      (tempSlots_kept made).2 members run
    have temps (live : LiveScopes) : ∀ x ∈ temps, s₂.frame.Kept live x := fun x member =>
      ((tempSlots_kept made).2 x member).mono lays.advances.grows.labels fun _ => id
    refine (((given.after begun).append lays).assigned _).node rfl (temps live) (temps _)
      fun d member => ?_
    simpa [Typed.Node.staying, Typed.Node.parts, Typed.Node.operands, Typed.Node.landing?]
      using member

theorem elaborateCall_lays {id : NodeId} {receiver : Option Expr} {name : String}
    {nameSpan : Span} {written : List Expr} {block : Option Block}
    (h : elaborateCall cx elaborate here id receiver name nameSpan written block s =
      some (l, s')) : Lays live here s [l.code] s' := by
  obtain ⟨parts, ends, s₁, run, ⟨-, rfl, rfl⟩ | ⟨-, sent, runSent, rfl⟩⟩ := elaborateCall_steps h
  · exact (elaborateParts_lays laying seated run).ofParts
  · have lays := elaborateParts_lays laying seated run
    obtain ⟨seated₁, types⟩ := seated.afterParts laying run
    have known : ∀ c ∈ sentOperands here receiver parts, c.AllTypes (Ty.Known .all) :=
      sentOperands_known seated.place types
    have given : Lays live here s₁ (sentOperands here receiver parts) s₁ := by
      refine ⟨.refl _, ?_⟩
      rw [sentOperands]
      split
      · exact List.forall_mem_cons.2 ⟨.plain rfl (List.forall_mem_singleton.2 seated₁.lives.self)
          (by rintro _ ⟨⟩) (by rintro _ ⟨⟩), lays.laid⟩
      · exact lays.laid
    have sent := elaborateDispatch_lays laying seated₁ consistent (fun t member => by
      obtain ⟨c, there, type⟩ := List.mem_filterMap.1 member
      exact (known c there).own t type) given runSent
    exact ⟨lays.advances.trans sent.advances, sent.laid⟩

omit consistent in
/-- The block runs beside the expanded method that yields to it. -/
theorem elaborateYield_lays {span : Span} {written : List Expr}
    (h : elaborateYield elaborate here span written s = some (l, s')) :
    Lays live here s [l.code] s' := by
  obtain ⟨parts, ends, s₁, run, ⟨-, rfl, rfl⟩ | ⟨-, ⟨block, site, definer, parameters, s₂, body,
    origin, bound, runBody, rfl⟩ | ⟨e, -, rfl, rfl⟩⟩⟩ := elaborateYield_steps h
  · exact (elaborateParts_lays laying seated run).ofParts
  · have given := elaborateParts_lays laying seated run
    obtain ⟨seated₁, types⟩ := seated.afterParts laying run
    have types := fun c (member : c ∈ parts) => (types c member).own
    obtain ⟨-, standing⟩ := seated.place.activation.yielded origin
    have scope := standing.path.mono seated.place.depth
    have known := seated₁.known.withoutAssigned
      fun k => !isWithin k.path (.block block.id :: definer.path)
    obtain ⟨binds, -⟩ := bindYielded_binds scope known types bound
    have grows := (grows_assigned s₁ _).trans (bindYielded_grows bound)
    have admits := seated₁.lives.admits_block origin
    have inner : Seated cx (live.enter (.block block.id :: definer.path))
        ⟨blockContext block site definer, here.depth⟩ s₂ :=
      { place := ⟨standing, seated.place.depth⟩
        known := known.bindYielded scope (fun _ _ => trivial) types bound
        innermost := fun q there within => admits.innermost there within
        lives := seated₁.lives.yielded (fun x kept => kept.mono grows.labels fun _ => .inl) origin }
    have lays := elaborateBody_lays laying inner runBody
    have known₃ := (inner.afterBody laying runBody).known
    obtain ⟨methods, instances⟩ := bindYielded_keeps bound
    have begun : s₁.Advances LaidMethod s₂ := .of_step grows methods instances
    have advances := begun.trans lays.advances
    obtain ⟨id, key, homes, there, outer⟩ := seated.lives.yielding origin
    have own {x : SlotId} (member : x ∈ parameters) :
        ∃ name, s'.frame.Holds cx x ⟨.block block.id :: definer.path, name⟩ := by
      obtain ⟨name, own⟩ := binds.slots x member
      exact ⟨name, own.mono lays.advances.grows.labels⟩
    refine ⟨given.advances.trans advances, List.forall_mem_singleton.2 ?_⟩
    have staying := (given.after advances).laid
    rw [homes] at staying ⊢
    have apart : ScopeLevel.kind (.block block.id) ≠ ScopeLevel.kind (.inline id key) := nofun
    refine .block rfl staying outer apart ⟨admits, fun x member => ?_, fun x member => ?_⟩
      (lays.laid _ List.mem_cons_self)
    · obtain ⟨name, own⟩ := own member
      exact own.kept (.inr rfl)
    · rcases List.mem_append.1 member with first | within
      · obtain ⟨name, own⟩ := own first
        exact own.within (List.suffix_refl _)
      · obtain ⟨k, own, nested⟩ := known₃.slots.mem_slotsWithin scope.proper within
        exact own.within nested
  · have lays := elaborateParts_lays laying seated run
    exact ⟨lays.advances.trans (.of_step (grows_with_error _ _) rfl rfl),
      (failed_lays (grows_with_error _ _) rfl rfl).laid⟩

end Methods

end Constructs

section Forms

variable {cx : Setting} {elaborate : Elaborate}

/-- Each construct is laid out in scopes, given that its parts are. -/
theorem elaborateForm_laying (consistent : cx.definitions.Consistent)
    (laying : elaborate.Laying cx) : Elaborate.Laying cx (elaborateForm cx elaborate) where
  growing := elaborateForm_grows laying.growing
  knowing := elaborateForm_knowing (Vocabulary.all_covers cx) consistent laying.knowing
  lays live here e s l s' seated h := by
    cases form : e.form with
    | literal _ | defMethod _ | defClass _ | defLib _ =>
      simp only [elaborateForm, form] at h
      obtain ⟨rfl, rfl⟩ := pure_eq_some.1 h
      exact (Lays.refl s).plain rfl rfl (by rintro _ ⟨⟩) rfl
    | self =>
      simp only [elaborateForm, form] at h
      obtain ⟨rfl, rfl⟩ := pure_eq_some.1 h
      exact (Lays.refl s).node rfl (List.forall_mem_singleton.2 seated.lives.self) (by rintro _ ⟨⟩) (by rintro _ ⟨⟩)
    | read v =>
      simp only [elaborateForm, form] at h
      exact elaborateRead_lays seated h
    | assign v _ value =>
      simp only [elaborateForm, form] at h
      exact elaborateAssignment_lays laying seated h
    | call receiver name nameSpan arguments block =>
      simp only [elaborateForm, form] at h
      exact elaborateCall_lays laying seated consistent h
    | yield arguments =>
      simp only [elaborateForm, form] at h
      exact elaborateYield_lays laying seated h
    | «return» value | «break» value =>
      simp only [elaborateForm, form] at h
      exact elaborateExit_lays laying seated h
    | conditional kind condition consequent alternative =>
      simp only [elaborateForm, form] at h
      exact elaborateConditional_lays laying seated h
    | «while» condition body =>
      simp only [elaborateForm, form] at h
      exact elaborateWhile_lays laying seated h
    | logical connective left right =>
      simp only [elaborateForm, form] at h
      exact elaborateLogical_lays laying seated h
    | not operand =>
      simp only [elaborateForm, form] at h
      exact elaborateNot_lays laying seated h

theorem elaborateExpr_laying (consistent : cx.definitions.Consistent) (fuel : Nat) :
    Elaborate.Laying cx (elaborateExpr cx fuel) := by
  induction fuel with
  | zero => exact ⟨fun _ _ _ _ _ => nofun, fun _ _ _ _ _ _ _ _ => nofun,
      fun _ _ _ _ _ _ _ => nofun⟩
  | succ fuel ih => exact elaborateForm_laying consistent ih

end Forms

end TypedBlocks.Inference

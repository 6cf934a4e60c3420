import TypedBlocks.Proofs.FinishedMethods
import TypedBlocks.Proofs.LiveScopes

/-!
# Filled slots

The variables that elaboration takes to be assigned have slots, and at run time those slots have been
assigned, unless the variable is known to hold nil at times: parameters of a block count as assigned
although a yield may give them nothing, but then their types have nil. A run of elaboration keeps to
this while it brings in variables of its own scopes and of methods that it meets.
-/
namespace TypedBlocks.Inference

open Typed (InstanceId SlotId Slot SlotSet DefiniteInOrder)
open Pass

section States

variable {cx : Setting} {live live' : LiveScopes} {root : LevelKind} {here : Place} {A : SlotSet}
  {s s₁ s₂ s' : PassState} {k l : ScopeVar} {x : SlotId}

/-- The variable can hold the values of the type, as far as is known. -/
def PassState.CanHold (s : PassState) (k : ScopeVar) (t : Ty) : Prop :=
  ∃ u, s.tables.var? k = some u ∧ t ≤ u

/-- The variable can hold nil, as far as is known. -/
def PassState.Nilable (s : PassState) (k : ScopeVar) : Prop :=
  ∃ t, s.tables.var? k = some t ∧ Ty.nil ≤ t

/-- The slots of variables of live scopes that are assigned and never hold nil. -/
def PassState.Filled (live : LiveScopes) (s : PassState) : SlotSet := fun x =>
  ∃ k ∈ s.assigned, live (pathKind k.path) ∧ ¬ s.Nilable k ∧ s.frame.find? k = some x

/-- The outermost level of the scope of a variable: the top level or a method. -/
def ScopeVar.root? (k : ScopeVar) : Option LevelKind := (pathKind k.path).getLast?

/-- The top level, or a method that has been met. -/
def PassState.Lists (s : PassState) (level : LevelKind) : Prop :=
  level = .main ∨ ∃ e ∈ s.instances, level = .instance e.1.kind

/-- An assigned variable belongs to a method that has been met, and has a slot if its scope is
live. -/
structure KeyReady (cx : Setting) (live : LiveScopes) (s : PassState) (k : ScopeVar) : Prop where
  known : k.Known cx .all
  root : ∃ level, k.root? = some level ∧ s.Lists level
  seat : live (pathKind k.path) → ∃ x, s.frame.find? k = some x

/-- The elaboration of a method, named by its root, is at a place with the scopes that are live
there. -/
structure PassState.Ready (cx : Setting) (live : LiveScopes) (root : LevelKind) (here : Place)
    (s : PassState) : Prop where
  place : here.Known cx .all
  known : s.Known cx .all
  innermost : here.activation.Innermost live
  rooted : ∀ q, live q → q.getLast? = some root
  root : s.Lists root
  keys : ∀ k ∈ s.assigned, KeyReady cx live s k

/-- The slots of the set are not emptied before their scopes are left, and all filled slots are in
it. -/
structure PassState.Covered (live : LiveScopes) (A : SlotSet) (here : Place) (s : PassState) :
    Prop where
  lives : here.activation.Lives live A
  kept : ∀ x, A x → s.frame.Kept live x
  filled : ∀ x, s.Filled live x → A x

/-- What is assigned when elaboration has come to the state. -/
def After (live : LiveScopes) (A : SlotSet) (s : PassState) : SlotSet := fun x =>
  A x ∨ s.Filled live x

theorem PassState.Lists.mono {level : LevelKind} (lists : s.Lists level) (grows : s.Grows s') :
    s'.Lists level :=
  lists.imp_right fun ⟨e, member, same⟩ => ⟨e, grows.instances.subset member, same⟩

theorem KeyReady.mono (ready : KeyReady cx live s k) (grows : s.Grows s') :
    KeyReady cx live s' k where
  known := ready.known
  root := by
    obtain ⟨level, same, lists⟩ := ready.root
    exact ⟨level, same, lists.mono grows⟩
  seat there := by
    obtain ⟨x, found⟩ := ready.seat there
    exact ⟨x, FrameSlots.find?_mono grows.labels found⟩

theorem KeyReady.fewer (ready : KeyReady cx live' s k) (more : ∀ p, live p → live' p) :
    KeyReady cx live s k := { ready with seat := fun there => ready.seat (more _ there) }

/-- What a variable can once hold it can still hold later, however it is written. -/
theorem PassState.CanHold.later {t : Ty} (holds : s₁.CanHold k t) (grows : s₁.Grows s₂)
    (left : s₁.Known cx .all) (right : s₂.Known cx .all) (known : k.Known cx .all)
    (other : l.Known cx .all) (same : k.kind = l.kind) : s₂.CanHold l t := by
  obtain ⟨w, entry, below⟩ := holds
  obtain ⟨u, entry', extended⟩ := grows.tables.vars.lookup entry
  have reduced := (left.tables.vars.lookup entry).reduced
  have wider := (reduced.prefix_extended extended).1.subset
  refine ⟨u, ?_, fun m member => ?_⟩
  · rw [← right.tables.var?_kind other known same]
    exact entry'
  · obtain ⟨n, there, covers⟩ := below m member
    exact ⟨n, wider there, covers⟩

/-- What has once been known to be nil at times stays so. -/
theorem PassState.Nilable.later (nilable : s₁.Nilable k) (grows : s₁.Grows s₂)
    (left : s₁.Known cx .all) (right : s₂.Known cx .all) (known : k.Known cx .all)
    (other : l.Known cx .all) (same : k.kind = l.kind) : s₂.Nilable l :=
  PassState.CanHold.later nilable grows left right known other same

/-- A filled slot is that of a variable assigned earlier, if that is the same. -/
theorem PassState.Known.filled_earlier (known : s₁.Known cx .all) (known' : s₂.Known cx .all)
    (grows : s₁.Grows s₂) (member : k ∈ s₁.assigned) (ready : KeyReady cx live s₁ k)
    (other : l.Known cx .all) (same : k.kind = l.kind) (there : live (pathKind l.path))
    (never : ¬ s₂.Nilable l) (found : s₂.frame.find? l = some x) : s₁.Filled live x := by
  have path : pathKind k.path = pathKind l.path := congrArg VarKind.path same
  have there : live (pathKind k.path) := path ▸ there
  obtain ⟨y, seat⟩ := ready.seat there
  have later := FrameSlots.find?_mono grows.labels seat
  rw [known'.slots.find?_kind ready.known other same, found] at later
  cases later
  refine ⟨k, member, there, fun nilable => never ?_, seat⟩
  exact nilable.later grows known known' ready.known other same

/-- Filled slots belong to live scopes. -/
theorem PassState.Ready.filled_kept (ready : s.Ready cx live root here) (filled : s.Filled live x) :
    s.frame.Kept live x := by
  obtain ⟨k, member, there, -, found⟩ := filled
  exact (ready.known.slots.find?_holds (ready.keys k member).known found).kept there

theorem PassState.Covered.kept_later (covered : s.Covered live A here) (grows : s.Grows s')
    (inside : A x) : s'.frame.Kept live x := (covered.kept x inside).mono grows.labels fun _ => id

theorem PassState.Covered.after (covered : s.Covered live A here)
    (ready : s'.Ready cx live root here) (grows : s.Grows s') :
    s'.Covered live (After live A s') here where
  lives := covered.lives.mono fun _ => .inl
  kept x inside := by
    rcases inside with before | filled
    · exact covered.kept_later grows before
    · exact ready.filled_kept filled
  filled _ := .inr

/-- The variable is not new, or it belongs to the method at hand or to one that is new. -/
def Brought (root : LevelKind) (s : PassState) (k : ScopeVar) : Prop :=
  k ∈ s.assigned ∨ k.root? = some root ∨ ∃ level, k.root? = some level ∧ ¬ s.Lists level

theorem Brought.trans (grows : s.Grows s₁)
    (first : ∀ k ∈ s₁.assigned, Brought root s k) (second : Brought root s₁ k) :
    Brought root s k := by
  rcases second with old | own | ⟨level, same, new⟩
  · exact first k old
  · exact .inr (.inl own)
  · exact .inr (.inr ⟨level, same, fun lists => new (lists.mono grows)⟩)

/-- Every method reads only what is assigned or can be nil. -/
def DefiniteMethod : MethodProperty := fun _ _ m => m.Definite

/-- A run of elaboration at a place. -/
structure Moves (cx : Setting) (live : LiveScopes) (root : LevelKind) (here : Place)
    (s s' : PassState) : Prop where
  grows : s.Grows s'
  ready : s'.Ready cx live root here
  finishes : s.Finishes DefiniteMethod (fun _ _ => True) s'
  brought : ∀ k ∈ s'.assigned, Brought root s k

theorem definiteMethod_lasting : DefiniteMethod.Lasting := fun _ _ _ _ _ => id

namespace Moves

theorem refl (ready : s.Ready cx live root here) : Moves cx live root here s s :=
  ⟨.refl s, ready, .of_same rfl rfl, fun _ => .inl⟩

theorem trans (first : Moves cx live root here s s₁) (second : Moves cx live root here s₁ s') :
    Moves cx live root here s s' where
  grows := first.grows.trans second.grows
  ready := second.ready
  finishes := first.finishes.trans definiteMethod_lasting second.finishes second.grows
  brought k member := .trans first.grows first.brought (second.brought k member)

/-- A step that makes no methods, and brings in no variables but such as may come in here. -/
theorem of_step (ready : s.Ready cx live root here) (grows : s.Grows s') (known : s'.Known cx .all)
    (methods : s'.methods = s.methods) (instances : s'.instances = s.instances)
    (assigned : ∀ k ∈ s'.assigned, k ∈ s.assigned ∨
      KeyReady cx live s' k ∧ k.root? = some root) : Moves cx live root here s s' where
  grows := grows
  ready :=
    { ready with
      known
      root := ready.root.mono grows
      keys := fun k member => (assigned k member).elim
        (fun old => (ready.keys k old).mono grows) fun new => new.1 }
  finishes := .of_same methods instances
  brought k member := (assigned k member).imp_right fun new => .inl new.2

/-- The place is another one with the same scopes. -/
theorem at_place {other : Place} (moves : Moves cx live root other s s')
    (place : here.Known cx .all) (innermost : here.activation.Innermost live) :
    Moves cx live root here s s' :=
  { moves with ready := { moves.ready with place, innermost } }

/-- Variables that were assigned at times on the way are assigned again. -/
theorem withAssigned {keys : List ScopeVar} (moves : Moves cx live root here s s')
    (each : ∀ k ∈ keys, KeyReady cx live s' k ∧ Brought root s k) :
    Moves cx live root here s { s' with assigned := keys } where
  grows := moves.grows.trans (grows_assigned s' keys)
  ready :=
    { moves.ready with
      known := moves.ready.known.withAssigned fun k member => (each k member).1.known
      root := moves.ready.root
      keys := fun k member =>
        have ready := (each k member).1
        ⟨ready.known, ready.root, ready.seat⟩ }
  finishes := ⟨moves.finishes.made, moves.finishes.present⟩
  brought k member := (each k member).2

/-- The assigned variables of a state on the way can be taken up again. -/
theorem earlier (first : Moves cx live root here s s₁) (grows : s₁.Grows s') :
    ∀ k ∈ s₁.assigned, KeyReady cx live s' k ∧ Brought root s k :=
  fun k member => ⟨(first.ready.keys k member).mono grows, first.brought k member⟩

end Moves

/-- Slots that are filled with variables of an earlier state were filled then. -/
theorem Moves.filled_back {keys : List ScopeVar} (first : Moves cx live root here s s₁)
    (known : s'.Known cx .all) (grows : s₁.Grows s')
    (among : ∀ k ∈ keys, k.Known cx .all ∧ ∃ l ∈ s₁.assigned, l.kind = k.kind)
    (filled : ({ s' with assigned := keys } : PassState).Filled live x) : s₁.Filled live x := by
  obtain ⟨k, member, there, never, found⟩ := filled
  obtain ⟨other, l, inside, same⟩ := among k member
  have key := first.ready.keys l inside
  exact first.ready.known.filled_earlier known grows inside key other same there never found

/-- A step fills no slots if it leaves the assigned variables as they are. -/
theorem PassState.Ready.filled_back (ready : s.Ready cx live root here) (known : s'.Known cx .all)
    (grows : s.Grows s') (same : ∀ k ∈ s'.assigned, k ∈ s.assigned) (filled : s'.Filled live x) :
    s.Filled live x :=
  (Moves.refl ready).filled_back known grows
    (fun k member => ⟨known.assigned k member, k, same k member, rfl⟩) filled

/-- No slots are filled where the variables of the state are taken up again. -/
theorem PassState.Ready.after_again (ready : s.Ready cx live root here)
    (again : Moves cx live root here s { s' with assigned := s.assigned })
    (inside : After live A { s' with assigned := s.assigned } x) : After live A s x :=
  inside.imp_right (ready.filled_back again.ready.known again.grows fun _ => id)

theorem PassState.Covered.again (covered : s.Covered live A here) (ready : s.Ready cx live root here)
    (again : Moves cx live root here s { s' with assigned := s.assigned }) :
    PassState.Covered live A here { s' with assigned := s.assigned } where
  lives := covered.lives
  kept _ inside := covered.kept_later again.grows inside
  filled x filled := (ready.after_again again (.inr filled)).elim id (covered.filled x)

end States

section Code

variable {cx : Setting} {live : LiveScopes} {root : LevelKind} {here : Place} {A A₀ : SlotSet}
  {s s₁ s' : PassState} {codes ds : List Typed.Expr} {code : Typed.Expr}

/-- A run of elaboration has made code. From slots that are assigned before the code, the slots that
were assigned in the first state and those filled by now are assigned after it, and all that the code
empties are slots of scopes that are not live. -/
structure Makes (cx : Setting) (live : LiveScopes) (root : LevelKind) (here : Place)
    (A₀ A : SlotSet) (s : PassState) (codes : List Typed.Expr) (s' : PassState) : Prop where
  moves : Moves cx live root here s s'
  definite : DefiniteInOrder A₀ codes (After live A s')
  loose : ∀ c ∈ codes, ∀ x, c.Empties x → s'.frame.Loose live x

namespace Makes

theorem alone (makes : Makes cx live root here A₀ A s [code] s') :
    code.Definite A₀ (After live A s') := makes.definite.single

theorem nil (ready : s.Ready cx live root here) (covered : s.Covered live A here) :
    Makes cx live root here A A s [] s where
  moves := .refl ready
  definite := .nil fun x inside => inside.elim id (covered.filled x)
  loose := nofun

theorem loose_later (makes : Makes cx live root here A₀ A s codes s₁) (grows : s₁.Grows s') :
    ∀ c ∈ codes, ∀ x, c.Empties x → s'.frame.Loose live x := fun c member x empties =>
  (makes.loose c member x empties).mono grows.labels fun _ => id

theorem cons (first : Makes cx live root here A₀ A s [code] s₁)
    (rest : Makes cx live root here (After live A s₁) (After live A s₁) s₁ codes s') :
    Makes cx live root here A₀ A s (code :: codes) s' where
  moves := first.moves.trans rest.moves
  definite := by
    refine .cons first.alone (rest.definite.weaken fun x inside => ?_)
    exact inside.imp_left .inl
  loose := List.forall_mem_cons.2
    ⟨first.loose_later rest.moves.grows code List.mem_cons_self, rest.loose⟩

/-- Code at hand, as it is when more code is made from it. -/
theorem settled (makes : Makes cx live root here A₀ A s codes s₁) :
    Makes cx live root here A₀ (After live A s₁) s₁ codes s₁ where
  moves := .refl makes.moves.ready
  definite := makes.definite.weaken fun _ inside => inside.elim id .inr
  loose := makes.loose

/-- Code made from code at hand. -/
theorem onto (first : Makes cx live root here A₀ A s codes s₁)
    (second : Makes cx live root here A₀ (After live A s₁) s₁ ds s') :
    Makes cx live root here A₀ A s ds s' where
  moves := first.moves.trans second.moves
  definite := second.definite.weaken fun _ inside => inside.imp_left .inl
  loose := second.loose

/-- A run that fills no slots and makes no code. -/
theorem after (parts : Makes cx live root here A₀ A s codes s₁)
    (moves : Moves cx live root here s₁ s') (same : ∀ x, s'.Filled live x → After live A s₁ x) :
    Makes cx live root here A₀ A s codes s' where
  moves := parts.moves.trans moves
  definite := parts.definite.weaken fun x inside => inside.elim .inl (same x)
  loose := parts.loose_later moves.grows

/-- A slot is emptied by a part of the code, if the node is not a scope. -/
theorem loose_parts {ty : Option Ty} {node : Typed.Node} {f : FrameSlots}
    (parts : ∀ d ∈ node.parts, ∀ x, d.Empties x → f.Loose live x)
    (emptied : ∀ x ∈ node.emptied, f.Loose live x) :
    ∀ x, Typed.Expr.Empties ⟨ty, node⟩ x → f.Loose live x := by
  intro x empties
  rcases empties.cases with here | ⟨d, part, empties⟩
  · exact emptied x here
  · exact parts d part x empties

/-- A node of code at hand that evaluates it in order. -/
theorem ordered {ty : Option Ty} {node : Typed.Node} (parts : Makes cx live root here A₀ A s codes s')
    (ordered : node.ordered? = some codes) : Makes cx live root here A₀ A s [⟨ty, node⟩] s' where
  moves := parts.moves
  definite := .cons (.ordered ordered parts.definite) (.nil fun _ => id)
  loose := by
    obtain ⟨same, none⟩ := Typed.Node.ordered_parts ordered
    refine List.forall_mem_cons.2 ⟨loose_parts (fun d part => ?_) (by simp [none]), nofun⟩
    exact parts.loose d (same ▸ part)

/-- A single part lives for itself. -/
theorem ofParts {ty : Option Ty} (parts : Makes cx live root here A₀ A s codes s')
    (single : ∀ c, codes = [c] → c.ty = ty) :
    Makes cx live root here A₀ A s [Typed.Expr.ofParts codes ty] s' := by
  unfold Typed.Expr.ofParts
  split
  · rename_i only
    have typed := single only rfl
    cases only
    cases typed
    exact parts
  · exact parts.ordered rfl

/-- A read of a slot that is assigned. -/
theorem slot {ty : Option Ty} {x : SlotId} (ready : s.Ready cx live root here)
    (covered : s.Covered live A here) (inside : A x) :
    Makes cx live root here A A s [⟨ty, .slot x⟩] s where
  moves := .refl ready
  definite := .cons (.slot (.inl inside) fun _ => id)
    (.nil fun x after => after.elim id (covered.filled x))
  loose := List.forall_mem_cons.2 ⟨loose_parts nofun nofun, nofun⟩

end Makes

end Code

section Binding

variable {cx : Setting} {s s' : PassState} {path : ScopeChain} {ids : List SlotId}

/-- What is assigned after some variables of a scope have been bound: those that were, and the bound
ones, which have the slots. -/
structure BindsIn (cx : Setting) (path : ScopeChain) (s : PassState) (ids : List SlotId)
    (s' : PassState) : Prop where
  assigned : ∀ k ∈ s'.assigned, k ∈ s.assigned ∨
    k.path = path ∧ ∃ x ∈ ids, s'.frame.find? k = some x
  slots : ∀ x ∈ ids, ∃ name, s'.frame.Holds cx x ⟨path, name⟩

theorem mem_marked {keys : List ScopeVar} {key k : ScopeVar} (member : k ∈ marked keys key) :
    k ∈ keys ∨ k = key := by
  rw [marked] at member
  split at member
  · exact .inl member
  · exact (List.mem_cons.1 member).symm

theorem BindsIn.nil : BindsIn cx path s [] s := ⟨fun _ => .inl, nofun⟩

theorem BindsIn.cons {s₁ : PassState} {name : String} {t : Ty} {id : SlotId}
    (scope : PathKnown cx .all cx.limits.maxInlineDepth path) (known : s.Known cx .all)
    (bound : bindVar path name t s = some (id, s₁)) (grows : s₁.Grows s')
    (rest : BindsIn cx path s₁ ids s') : BindsIn cx path s (id :: ids) s' := by
  have key : ScopeVar.Known cx .all ⟨path, name⟩ := scope
  rw [bindVar_run] at bound
  cases bound
  have found := FrameSlots.find?_slotFor (f := s.frame) key.beq_self
  have holds := known.slots.slotFor_holds key
  constructor
  · intro k member
    rcases rest.assigned k member with old | ⟨same, x, inside, found⟩
    · rcases mem_marked old with old | rfl
      · exact .inl old
      · exact .inr ⟨rfl, _, List.mem_cons_self, FrameSlots.find?_mono grows.labels found⟩
    · exact .inr ⟨same, x, List.mem_cons_of_mem _ inside, found⟩
  · exact List.forall_mem_cons.2 ⟨⟨name, holds.mono grows.labels⟩, rest.slots⟩

theorem bindVars_binds (scope : PathKnown cx .all cx.limits.maxInlineDepth path)
    {ps : List Parameter} {ts : List Ty} (known : s.Known cx .all) (types : ∀ t ∈ ts, t.Known .all)
    (h : bindVars path ps ts s = some (ids, s')) : BindsIn cx path s ids s' := by
  induction ps generalizing ts ids s with
  | nil =>
    obtain ⟨rfl, rfl⟩ := pure_eq_some.1 h
    exact .nil
  | cons p ps ih =>
    cases ts with
    | nil =>
      obtain ⟨rfl, rfl⟩ := pure_eq_some.1 h
      exact .nil
    | cons t ts =>
      obtain ⟨id, s₁, bound, h⟩ := bind_eq_some.1 h
      obtain ⟨rest, s₂, boundRest, h⟩ := bind_eq_some.1 h
      obtain ⟨rfl, rfl⟩ := pure_eq_some.1 h
      rw [List.forall_mem_cons] at types
      have known₁ := known.bindVar scope trivial types.1 bound
      exact .cons scope known bound (bindVars_grows boundRest) (ih known₁ types.2 boundRest)

/-- A parameter that may get no value can be nil. -/
theorem bindYielded_binds (scope : PathKnown cx .all cx.limits.maxInlineDepth path)
    {ps : List BlockParameter} {parts : List Typed.Expr} (known : s.Known cx .all)
    (types : ∀ c ∈ parts, ∀ t ∈ c.ty, t.Known .all)
    (h : bindYielded path ps parts s = some (ids, s')) :
    BindsIn cx path s ids s' ∧ ∀ x ∈ ids.drop parts.length,
      ∃ name, s'.frame.find? ⟨path, name⟩ = some x ∧ s'.Nilable ⟨path, name⟩ := by
  induction ps generalizing parts ids s with
  | nil =>
    obtain ⟨rfl, rfl⟩ := pure_eq_some.1 h
    exact ⟨.nil, by simp⟩
  | cons p ps ih =>
    have whole := h
    obtain ⟨id, s₁, bound, h⟩ := bind_eq_some.1 h
    obtain ⟨rest, s₂, boundRest, h⟩ := bind_eq_some.1 h
    obtain ⟨rfl, rfl⟩ := pure_eq_some.1 h
    have grows := bindYielded_grows boundRest
    have key : ScopeVar.Known cx .all ⟨path, p.name⟩ := scope
    have types' : ∀ c ∈ parts.drop 1, ∀ t ∈ c.ty, t.Known .all :=
      fun c member => types c (List.mem_of_mem_drop member)
    have type : ((parts.head?.bind (·.ty)).getD Ty.nil).Known .all := by
      cases parts with
      | nil => exact .nil
      | cons c parts =>
        cases ty : c.ty with
        | none => simpa [ty] using Ty.Known.nil
        | some t => simpa [ty] using types c List.mem_cons_self t ty
    have known₁ := known.bindVar scope trivial type bound
    have known₂ := known.bindYielded scope (fun _ _ => trivial) types whole
    obtain ⟨binds, missing⟩ := ih known₁ types' boundRest
    refine ⟨.cons scope known bound grows binds, ?_⟩
    cases parts with
    | nil =>
      refine List.forall_mem_cons.2 ⟨⟨p.name, ?_, ?_⟩, by simpa using missing⟩
      · rw [bindVar_run] at bound
        cases bound
        exact FrameSlots.find?_mono grows.labels (FrameSlots.find?_slotFor key.beq_self)
      · refine PassState.Nilable.later (k := ⟨path, p.name⟩) ?_ grows known₁ known₂ key key rfl
        rw [bindVar_run] at bound
        cases bound
        exact extendAt_covers _ key.beq_self
          (fun e member => (known.tables.vars.each e member).1.1.beq_comm key)
          (fun e member => (known.tables.vars.each e member).2) .nil
    | cons c parts => simpa using missing

/-- Temporary slots are those of no variable. -/
theorem tempSlots_kept {live : LiveScopes} {types : List Ty} (h : tempSlots types s = some (ids, s')) :
    s'.assigned = s.assigned ∧ ∀ x ∈ ids, s'.frame.Kept live x := by
  induction types generalizing ids s with
  | nil =>
    obtain ⟨rfl, rfl⟩ := pure_eq_some.1 h
    exact ⟨rfl, (by rintro _ ⟨⟩)⟩
  | cons t ts ih =>
    simp only [tempSlots] at h
    rw [bind_run (tempSlot_run _)] at h
    obtain ⟨rest, s₂, made, h⟩ := bind_eq_some.1 h
    obtain ⟨rfl, rfl⟩ := pure_eq_some.1 h
    obtain ⟨same, kept⟩ := ih made
    refine ⟨same, List.forall_mem_cons.2 ⟨?_, kept⟩⟩
    have first : (s.frame.tempSlot t).2.Kept live (s.frame.tempSlot t).1 :=
      ⟨_, none, by simp [FrameSlots.labels, FrameSlots.tempSlot]; rfl, (by rintro _ ⟨⟩)⟩
    exact first.mono (tempSlots_grows made).labels fun _ => id

theorem boundSlots_take {β : Type} (slots : List SlotId) (vs : List β) :
    boundSlots slots vs = slots.take vs.length := by
  induction slots generalizing vs with
  | nil => simp [boundSlots]
  | cons s slots ih =>
    cases vs with
    | nil => rfl
    | cons v vs =>
      have rest := ih vs
      rw [boundSlots] at rest
      rw [boundSlots, List.zip_cons_cons, List.map_cons, rest, List.length_cons, List.take_succ_cons]

end Binding

section Scopes

variable {cx : Setting} {live : LiveScopes} {root : LevelKind} {here inner : Place} {A B : SlotSet}
  {s s₀ s₁ s₂ : PassState} {path : ScopeChain} {ids : List SlotId}

/-- The body of a method or the top level starts with its own scope, when `self` and the parameters
are bound. -/
theorem ready_of_root (level : ScopeLevel) (place : here.Known cx .all) (known : s.Known cx .all)
    (same : here.activation.path = [level]) (alone : here.activation.origin = .body)
    (listed : s.Lists level.kind) (binds : BindsIn cx [level] s₀ ids s)
    (others : ∀ k ∈ s₀.assigned, ∃ other, k.root? = some other ∧ s.Lists other ∧ other ≠ level.kind)
    (self : s.frame.Holds cx here.activation.selfSlot ⟨[level], "self"⟩) :
    s.Ready cx (.only [level]) level.kind here ∧
      s.Covered (.only [level]) (fun x => x = here.activation.selfSlot ∨ x ∈ ids) here := by
  have not_old {k : ScopeVar} (old : k ∈ s₀.assigned) :
      ¬ LiveScopes.only [level] (pathKind k.path) := by
    intro there
    obtain ⟨other, root, -, different⟩ := others k old
    refine different (Option.some.inj (root.symm.trans ?_))
    exact congrArg List.getLast? there
  refine ⟨⟨place, known, fun q there _ => same ▸ there, fun q there => ?_, listed, fun k member => ?_⟩,
    ⟨?_, fun x inside => ?_, fun x filled => ?_⟩⟩
  · exact congrArg List.getLast? there
  · rcases binds.assigned k member with old | ⟨path, x, -, found⟩
    · obtain ⟨other, root, lists, -⟩ := others k old
      exact ⟨known.assigned k member, ⟨other, root, lists⟩, fun there => (not_old old there).elim⟩
    · exact ⟨known.assigned k member, ⟨_, congrArg (fun p => (pathKind p).getLast?) path, listed⟩,
        fun _ => ⟨x, found⟩⟩
  · rcases here with ⟨⟨p, _, _, _, _, origin⟩, _⟩
    cases same
    cases alone
    exact ⟨rfl, .inl rfl, trivial⟩
  · rcases inside with rfl | inside
    · exact self.kept rfl
    · obtain ⟨name, holds⟩ := binds.slots x inside
      exact holds.kept rfl
  · obtain ⟨k, member, there, -, found⟩ := filled
    rcases binds.assigned k member with old | ⟨-, y, inside, seat⟩
    · exact (not_old old there).elim
    · cases found.symm.trans seat
      exact .inr inside

/-- The body of an expansion or a block starts in a scope of its own, of which nothing is assigned but
what is bound. -/
theorem PassState.Ready.enter (ready : s.Ready cx live root here) (covered : s.Covered live A here)
    (place : inner.Known cx .all) (known : s₁.Known cx .all) (grows : s.Grows s₁)
    (proper : ProperPath path) (rooted : (pathKind path).getLast? = some root)
    (forgotten : ∀ k ∈ s₀.assigned, k ∈ s.assigned ∧ isWithin k.path path = false)
    (binds : BindsIn cx path s₀ ids s₁) (lives : inner.activation.Lives (live.enter path) B)
    (innermost : inner.activation.Innermost (live.enter path)) (wider : ∀ x, A x → B x)
    (base : ∀ x, B x → A x ∨ ∃ name, s₁.frame.Holds cx x ⟨path, name⟩)
    (bound : ∀ x ∈ ids, ∀ k ∈ s₁.assigned, k.path = path → ¬ s₁.Nilable k →
      s₁.frame.find? k = some x → B x) :
    s₁.Ready cx (live.enter path) root inner ∧ s₁.Covered (live.enter path) B inner := by
  have outside {k : ScopeVar} (old : k ∈ s₀.assigned) (there : live.enter path (pathKind k.path)) :
      live (pathKind k.path) := by
    obtain ⟨member, apart⟩ := forgotten k old
    refine there.resolve_right fun (same : _ = pathKind path) => ?_
    have within := (isWithin_iff (ready.keys k member).known.proper proper).2
      (same ▸ List.suffix_refl _)
    rw [apart] at within
    cases within
  refine ⟨⟨place, known, innermost, fun q there => ?_, ready.root.mono grows, fun k member => ?_⟩,
    ⟨lives, fun x inside => ?_, fun x filled => ?_⟩⟩
  · rcases there with before | (rfl : q = _)
    · exact ready.rooted q before
    · exact rooted
  · rcases binds.assigned k member with old | ⟨same, x, -, found⟩
    · have key := (ready.keys k (forgotten k old).1).mono grows
      exact ⟨key.known, key.root, fun there => key.seat (outside old there)⟩
    · refine ⟨known.assigned k member, ⟨root, ?_, ready.root.mono grows⟩, fun _ => ⟨x, found⟩⟩
      exact (congrArg (fun p => (pathKind p).getLast?) same).trans rooted
  · rcases base x inside with before | ⟨name, holds⟩
    · exact (covered.kept x before).mono grows.labels fun _ => .inl
    · exact holds.kept (.inr rfl)
  · obtain ⟨k, member, there, never, found⟩ := filled
    rcases binds.assigned k member with old | ⟨same, y, inside, seat⟩
    · have key := ready.keys k (forgotten k old).1
      exact wider x (covered.filled x (ready.known.filled_earlier known grows (forgotten k old).1 key
        key.known rfl (outside old there) never found))
    · cases found.symm.trans seat
      exact bound x inside k member same never found

/-- Back in the scope around. -/
theorem Moves.leave (ready : s.Ready cx live root here) (grows : s.Grows s₁)
    (methods : s₁.methods = s.methods) (instances : s₁.instances = s.instances)
    (came : ∀ k ∈ s₁.assigned, k ∈ s.assigned ∨ k.root? = some root)
    (within : Moves cx (live.enter path) root inner s₁ s₂) : Moves cx live root here s s₂ where
  grows := grows.trans within.grows
  ready :=
    { ready with
      known := within.ready.known
      root := ready.root.mono (grows.trans within.grows)
      keys := fun k member => (within.ready.keys k member).fewer fun _ => .inl }
  finishes := (PassState.Finishes.of_same methods instances).trans definiteMethod_lasting
    within.finishes within.grows
  brought k member := .trans grows (fun l inside => (came l inside).imp_right .inl)
    (within.brought k member)

end Scopes

section Merging

/-- What is assigned whichever path has been taken is assigned on every path that falls through. -/
theorem assignedAfter_each {before : List ScopeVar} {paths : List (Bool × List ScopeVar)}
    {p : Bool × List ScopeVar} (member : p ∈ paths) (falls : p.1 = true) :
    ∀ k ∈ assignedAfter before paths, ∃ l ∈ p.2, l = k ∨ (l == k) = true := by
  have narrows (rest : List (List ScopeVar)) (first : List ScopeVar) :
      ∀ k ∈ rest.foldl (fun all keys => all.filter fun k => keys.any (· == k)) first,
        k ∈ first ∧ ∀ keys ∈ rest, keys.any (· == k) = true := by
    induction rest generalizing first with
    | nil => exact fun k member => ⟨member, nofun⟩
    | cons keys rest ih =>
      intro k member
      obtain ⟨inside, each⟩ := ih _ k member
      exact ⟨(List.mem_filter.1 inside).1, List.forall_mem_cons.2 ⟨(List.mem_filter.1 inside).2, each⟩⟩
  have listed : p.2 ∈ (paths.filter (·.1)).map (·.2) :=
    List.mem_map_of_mem (List.mem_filter.2 ⟨member, falls⟩)
  intro k inside
  rw [assignedAfter] at inside
  split at inside
  · rename_i none
    rw [none] at listed
    cases listed
  · rename_i first rest falling
    rw [falling] at listed
    obtain ⟨start, each⟩ := narrows rest first k inside
    rcases List.mem_cons.1 listed with rfl | later
    · exact ⟨k, start, .inl rfl⟩
    · obtain ⟨l, there, same⟩ := List.any_eq_true.1 (each _ later)
      exact ⟨l, there, .inr same⟩

/-- What is filled whichever path has been taken was filled at the end of each that falls through. -/
theorem Moves.filled_path {cx : Setting} {live : LiveScopes} {root : LevelKind} {here : Place}
    {s s₁ s' : PassState} {x : SlotId} {before : List ScopeVar} {paths : List (Bool × List ScopeVar)}
    {p : Bool × List ScopeVar} (first : Moves cx live root here s s₁)
    (merged : PassState.Ready cx live root here { s' with assigned := assignedAfter before paths })
    (known : s'.Known cx .all) (grows : s₁.Grows s') (member : p ∈ paths) (falls : p.1 = true)
    (same : s₁.assigned = p.2)
    (filled : ({ s' with assigned := assignedAfter before paths } : PassState).Filled live x) :
    s₁.Filled live x := by
  refine first.filled_back known grows (fun k among => ?_) filled
  have there := (merged.keys k among).known
  obtain ⟨l, inside, turned⟩ := assignedAfter_each member falls k among
  rw [← same] at inside
  refine ⟨there, l, inside, turned.elim (congrArg _) fun turned => ?_⟩
  exact (ScopeVar.beq_iff (first.ready.keys l inside).known.proper there.proper).1 turned

end Merging

end TypedBlocks.Inference

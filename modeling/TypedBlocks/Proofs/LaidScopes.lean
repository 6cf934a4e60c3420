import Mathlib.Data.List.Forall2
import TypedBlocks.Proofs.EnteredScopes
import TypedBlocks.Proofs.LiveScopes

/-!
# Slots of nested scopes

Code is laid out in scopes when its names are those of live scopes, it writes only what is around it,
and every scope that it enters is one in which no live scope is nested. The block of a yield is entered
beside the expansion that yields to it, so nothing that runs in the block, or is entered from there,
has its slots inside that expansion.
-/
namespace TypedBlocks.Inference

open Typed (SlotId Entered standsIn)

/-- The live scopes that code in a scope can see. -/
def LiveScopes.around (live : LiveScopes) (path : ScopeChain) : LiveScopes :=
  fun q => live q ∧ q <:+ pathKind path

/-- The slot is that of a variable of the scope or of one nested in it. -/
def FrameSlots.Within (f : FrameSlots) (q : PathKind) (x : SlotId) : Prop :=
  ∃ name k, f.labels[x.val]? = some (x, name, some k) ∧ q <:+ pathKind k.path

/-- A scope in which no live scope is nested is entered with slots of its own. -/
structure FrameSlots.Opens (f : FrameSlots) (live : LiveScopes) (path : ScopeChain)
    (x : Entered) : Prop where
  admits : live.Admits path
  bound : ∀ s ∈ x.bound, f.Kept (live.enter path) s
  slots : ∀ s ∈ x.slots, f.Within (pathKind path) s

/-- Code in a scope, with the scopes of the expanded methods that it stands in, the innermost first. -/
inductive Laid (f : FrameSlots) : LiveScopes → ScopeChain → List ScopeChain → Typed.Expr → Prop
  | plain {live path homes} {e : Typed.Expr} (stays : e.node.enters? = none)
      (names : ∀ s ∈ e.node.names, f.Kept live s)
      (writes : ∀ s ∈ e.node.writes, f.Kept (live.around path) s)
      (staying : ∀ d ∈ e.node.staying, Laid f live path homes d) : Laid f live path homes e
  | call {live path homes level c} {e : Typed.Expr} (entered : e.node.enters? = some (.call c))
      (staying : ∀ d ∈ e.node.staying, Laid f live path homes d)
      (opens : f.Opens live (level :: path) (.call c))
      (body : Laid f (live.enter (level :: path)) (level :: path) ((level :: path) :: homes)
        c.body) : Laid f live path homes e
  | block {live path homes level expansion definer parameters locals body} {e : Typed.Expr}
      (entered : e.node.enters? = some (.block parameters locals body))
      (staying : ∀ d ∈ e.node.staying, Laid f live path ((expansion :: definer) :: homes) d)
      (outer : pathKind definer <:+ pathKind path)
      (apart : ScopeLevel.kind level ≠ ScopeLevel.kind expansion)
      (opens : f.Opens live (level :: definer) (.block parameters locals body))
      (body : Laid f (live.enter (level :: definer)) (level :: definer) homes body) :
      Laid f live path ((expansion :: definer) :: homes) e

section Slots

variable {f g : FrameSlots} {live live' : LiveScopes} {path : ScopeChain} {x : SlotId}
  {p q : PathKind}

theorem FrameSlots.Within.mono (within : f.Within q x) (longer : f.labels <+: g.labels) :
    g.Within q x := by
  obtain ⟨name, k, found, nested⟩ := within
  exact ⟨name, k, labels_mono longer found, nested⟩

/-- A slot within two scopes shows that one of them is nested in the other. -/
theorem FrameSlots.Within.nested (first : f.Within p x) (second : f.Within q x) :
    p <:+ q ∨ q <:+ p := by
  obtain ⟨name, k, found, inner⟩ := first
  obtain ⟨name', k', found', inner'⟩ := second
  have one : name = name' ∧ k = k' := by simpa using found.symm.trans found'
  exact List.suffix_or_suffix_of_suffix inner (one.2 ▸ inner')

theorem FrameSlots.Within.loose (within : f.Within (pathKind path) x)
    (admits : live.Admits path) : f.Loose live x := by
  obtain ⟨name, k, found, nested⟩ := within
  exact ⟨name, k, found, fun there => admits _ there nested⟩

/-- What code writes around it is not within a scope that it does not stand in. -/
theorem FrameSlots.Within.not_around (within : f.Within p x)
    (kept : f.Kept (live.around path) x) (outside : ¬ p <:+ pathKind path) : False := by
  obtain ⟨name, k, found, nested⟩ := within
  obtain ⟨name', key, found', inside⟩ := kept
  rw [found] at found'
  cases found'
  exact outside (nested.trans (inside k rfl).2)

theorem FrameSlots.Holds.within {cx : Setting} {key : ScopeVar} (holds : f.Holds cx x key)
    (nested : q <:+ pathKind key.path) : f.Within q x := by
  obtain ⟨k, found, -, same⟩ := holds
  exact ⟨k.name, k, found, by rwa [show pathKind k.path = _ from congrArg VarKind.path same]⟩

/-- A live scope is not around a scope that is entered, if it is not around the scope that is left. -/
theorem LiveScopes.Admits.not_suffix {level : ScopeLevel} (admits : live.Admits (level :: path))
    (there : live p) (outside : ¬ p <:+ pathKind path) : ¬ p <:+ pathKind (level :: path) := by
  intro nested
  rcases List.suffix_cons_iff.1 nested with rfl | inner
  · exact admits _ there (List.suffix_refl _)
  · exact outside inner

theorem FrameSlots.Opens.mono {y : Entered} (opens : f.Opens live path y)
    (longer : f.labels <+: g.labels) : g.Opens live path y where
  admits := opens.admits
  bound s member := (opens.bound s member).mono longer fun _ => id
  slots s member := (opens.slots s member).mono longer

/-- A scope that opens has no slot within a live scope that it does not stand in. -/
theorem FrameSlots.Opens.outside {level : ScopeLevel} {y : Entered}
    (opens : f.Opens live (level :: path) y) (there : live p) (outside : ¬ p <:+ pathKind path)
    (within : f.Within p x) : x ∉ y.slots := by
  intro member
  rcases within.nested (opens.slots x member) with inner | inner
  · exact opens.admits.not_suffix there outside inner
  · exact opens.admits p there inner

end Slots

namespace Laid

variable {f g : FrameSlots} {live : LiveScopes} {path : ScopeChain} {homes : List ScopeChain}
  {d e : Typed.Expr} {x : SlotId}

theorem mono (laid : Laid f live path homes e) (longer : f.labels <+: g.labels) :
    Laid g live path homes e := by
  induction laid with
  | plain stays names writes _ staying =>
    exact .plain stays (fun s member => (names s member).mono longer fun _ => id)
      (fun s member => (writes s member).mono longer fun _ => id) staying
  | call entered _ opens _ staying body => exact .call entered staying (opens.mono longer) body
  | block entered _ outer apart opens _ staying body =>
    exact .block entered staying outer apart (opens.mono longer) body

/-- The type of an expression does not matter. -/
theorem of_node (laid : Laid f live path homes e) (same : d.node = e.node) :
    Laid f live path homes d := by
  cases laid with
  | plain stays names writes staying =>
    exact .plain (same ▸ stays) (same ▸ names) (same ▸ writes) (same ▸ staying)
  | call entered staying opens body => exact .call (same ▸ entered) (same ▸ staying) opens body
  | block entered staying outer apart opens body =>
    exact .block (same ▸ entered) (same ▸ staying) outer apart opens body

theorem part (laid : Laid f live path homes e) (direct : d ∈ e.node.staying) :
    Laid f live path homes d := by
  cases laid with
  | plain _ _ _ staying | call _ staying _ _ | block _ staying _ _ _ _ => exact staying d direct

/-- What the code of a scope names is kept. -/
theorem kept (laid : Laid f live path homes e) (names : e.Names x) : f.Kept live x := by
  obtain ⟨d, stays, member⟩ := names
  induction stays with
  | self e =>
    cases laid with
    | plain _ names _ _ => exact names x member
    | call entered _ _ _ | block entered _ _ _ _ _ =>
      rw [(Typed.Node.entered entered).1] at member
      cases member
  | part direct _ ih => exact ih (laid.part direct) member

/-- Code writes nothing within a live scope that it does not stand in, nor does what it enters. -/
theorem spares (laid : Laid f live path homes e) {p : PathKind} (there : live p)
    (outside : ¬ p <:+ pathKind path) (within : f.Within p x) :
    ∀ d : Typed.Expr, d.Inside e → x ∉ d.node.writes := by
  induction laid with
  | plain stays names writes _ staying =>
    intro d inside
    cases inside with
    | self => exact fun member => within.not_around (writes x member) outside
    | part direct inside =>
      rcases Typed.Node.mem_parts.1 direct with part | ⟨y, entered, -⟩
      · exact staying _ part there outside d inside
      · rw [stays] at entered
        cases entered
  | call entered _ opens _ staying body =>
    intro d inside
    cases inside with
    | self =>
      rw [(Typed.Node.entered entered).2]
      exact opens.outside there outside within
    | part direct inside =>
      rcases Typed.Node.mem_parts.1 direct with part | ⟨y, same, rfl⟩
      · exact staying _ part there outside d inside
      · rw [entered] at same
        cases same
        exact body (.inl there) (opens.admits.not_suffix there outside) d inside
  | block entered _ outer apart opens _ staying body =>
    have outside' := fun nested => outside (List.IsSuffix.trans nested outer)
    intro d inside
    cases inside with
    | self =>
      rw [(Typed.Node.entered entered).2]
      exact opens.outside there outside' within
    | part direct inside =>
      rcases Typed.Node.mem_parts.1 direct with part | ⟨y, same, rfl⟩
      · exact staying _ part there outside d inside
      · rw [entered] at same
        cases same
        exact body (.inl there) (opens.admits.not_suffix there outside') d inside

end Laid

/-- The body of a method is laid out from its own scope on. -/
structure LaidFrom (f : FrameSlots) (root : ScopeLevel) (m : Typed.Method) : Prop where
  bound : ∀ s ∈ m.selfSlot :: m.parameters, f.Kept (.only [root]) s
  body : Laid f (.only [root]) [root] [] m.body

/-- The slots of a method are laid out in scopes. -/
def LaidMethod (m : Typed.Method) : Prop := ∃ f root, LaidFrom f root m

/-- The expanded method has its slots within a live scope. -/
def FrameSlots.Houses (f : FrameSlots) (live : LiveScopes) (c : Typed.ExpandedCall)
    (home : ScopeChain) : Prop :=
  live (pathKind home) ∧ ∀ s ∈ c.slots, f.Within (pathKind home) s

/-- What the code of entered scopes uses is kept, and the expanded methods that code stands in have
homes. -/
structure Standing (f : FrameSlots) (live : LiveScopes) (homes : List ScopeChain)
    (m : Typed.Method) (scopes : List Entered) : Prop where
  method : ∀ s, m.Uses s → f.Kept live s
  entered : ∀ y ∈ scopes, ∀ s, y.Uses s → f.Kept live s
  homes : List.Forall₂ (f.Houses live) (standsIn scopes) homes

section Methods

variable {f : FrameSlots} {live : LiveScopes} {path : ScopeChain} {homes inner : List ScopeChain}
  {root : ScopeLevel} {m : Typed.Method} {scopes : List Entered} {e : Typed.Expr} {y : Entered}

theorem Standing.enter (standing : Standing f live homes m scopes) (opens : f.Opens live path y)
    (body : Laid f (live.enter path) path inner y.body)
    (housed : List.Forall₂ (f.Houses (live.enter path)) (standsIn (y :: scopes)) inner) :
    Standing f (live.enter path) inner m (y :: scopes) where
  method s uses := (standing.method s uses).mono (List.prefix_refl _) fun _ => .inl
  entered := by
    refine List.forall_mem_cons.2 ⟨fun s uses => ?_, fun z member s uses => ?_⟩
    · exact uses.elim (opens.bound s) body.kept
    · exact (standing.entered z member s uses).mono (List.prefix_refl _) fun _ => .inl
  homes := housed

/-- All code of the method is laid out in the scopes that have been entered. -/
theorem LaidFrom.encloses (laid : LaidFrom f root m) (around : m.Encloses scopes e) :
    ∃ live path homes, Laid f live path homes e ∧ Standing f live homes m scopes := by
  induction around with
  | body =>
    exact ⟨_, _, _, laid.body, fun s uses => uses.elim (laid.bound s) laid.body.kept, nofun, .nil⟩
  | part _ direct ih =>
    obtain ⟨live, path, homes, there, standing⟩ := ih
    exact ⟨live, path, homes, there.part direct, standing⟩
  | @enter scopes e y _ entered ih =>
    obtain ⟨live, path, homes, there, standing⟩ := ih
    have housed {inner : ScopeChain} :
        List.Forall₂ (f.Houses (live.enter inner)) (standsIn scopes) homes :=
      standing.homes.imp fun _ _ ⟨there, slots⟩ => ⟨.inl there, slots⟩
    cases there with
    | plain stays _ _ _ =>
      rw [stays] at entered
      cases entered
    | call same _ opens body =>
      cases same.symm.trans entered
      exact ⟨_, _, _, body, standing.enter opens body (.cons ⟨.inr rfl, opens.slots⟩ housed)⟩
    | block same _ outer apart opens body =>
      cases same.symm.trans entered
      refine ⟨_, _, _, body, standing.enter opens body ?_⟩
      rw [standsIn]
      generalize standsIn scopes = calls at housed
      cases housed with
      | cons _ rest => exact rest

/-- A method that is laid out in scopes isolates its blocks. -/
theorem LaidMethod.isolates (laid : LaidMethod m) (p : Typed.Program) : m.Isolates p := by
  obtain ⟨f, root, laid⟩ := laid
  refine ⟨fun e => Typed.Method.inside_iff.1, fun scopes e parameters locals arguments body around
    node => ?_, fun scopes e x around entered s member => ?_⟩
  · obtain ⟨live, path, homes, there, standing⟩ := laid.encloses around
    have homes := standing.homes
    cases there with
    | plain stays _ _ _ =>
      rw [node] at stays
      cases stays
    | call entered _ _ _ =>
      rw [node] at entered
      cases entered
    | @block _ _ _ level expansion definer _ _ _ _ entered _ outer apart opens inner =>
      rw [node] at entered
      cases entered
      cases stands : standsIn scopes with
      | nil =>
        rw [stands] at homes
        cases homes
      | cons c around =>
        rw [stands] at homes
        obtain ⟨⟨there, slots⟩, -⟩ := List.forall₂_cons.1 homes
        -- The expansion and the block are nested in the same scope, so neither is in the other.
        have beside : ¬ pathKind (expansion :: definer) <:+ pathKind (level :: definer) := by
          intro nested
          have same := nested.eq_of_length (by simp [pathKind])
          exact apart (List.cons.inj same).1.symm
        refine ⟨c, around, rfl, fun s member => ⟨fun own => ?_, fun fuel => ?_⟩⟩
        · rcases (slots s member).nested (opens.slots s own) with nested | nested
          · exact beside nested
          · exact opens.admits _ there nested
        · exact Typed.eval_spares (inner.spares (.inl there) beside (slots s member)) fuel
  · obtain ⟨live, path, homes, there, standing⟩ := laid.encloses around
    have loose : f.Loose live s := by
      cases there with
      | plain stays _ _ _ =>
        rw [stays] at entered
        cases entered
      | call same _ opens _ | block same _ _ _ opens _ =>
        cases same.symm.trans entered
        exact (opens.slots s member).loose opens.admits
    exact ⟨fun uses => (standing.method s uses).not_loose loose,
      fun y inside uses => (standing.entered y inside s uses).not_loose loose⟩

end Methods

end TypedBlocks.Inference

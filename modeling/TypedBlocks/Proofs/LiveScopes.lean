import Mathlib.Data.List.Find
import TypedBlocks.Proofs.DefiniteAssignment
import TypedBlocks.Proofs.SlotVariables

/-!
# Live scopes

A scope is live while code runs that stands in it or has been entered from it. Entering a scope
empties the slots of its variables and of all scopes nested in it. So what is assigned in live scopes
lasts, because no scope is entered with a live one inside: an expansion nests in the innermost scope,
and a block in the scope around the expansion that it is given to.
-/
namespace TypedBlocks.Inference

open Typed (InstanceId SlotId Slot SlotSet)
open Pass

/-- Scopes up to sameness of the types in them. -/
abbrev LiveScopes := PathKind → Prop

/-- One more scope is live. -/
def LiveScopes.enter (live : LiveScopes) (path : ScopeChain) : LiveScopes :=
  fun q => live q ∨ q = pathKind path

/-- One scope is live. -/
def LiveScopes.only (path : ScopeChain) : LiveScopes := fun q => q = pathKind path

mutual

/-- The scope of the body is live and the slot of its `self` is assigned, and so on outwards. What is
live inside the body that an expansion is called from is inside the expansion. -/
def BodyContext.Lives (live : LiveScopes) (A : SlotSet) : BodyContext → Prop
  | ⟨path, _, _, selfSlot, _, origin⟩ =>
    live (pathKind path) ∧ A selfSlot ∧ origin.Lives live A path

def Origin.Lives (live : LiveScopes) (A : SlotSet) (path : ScopeChain) : Origin → Prop
  | .body => True
  | .expansion _ _ definer =>
    (∃ site key, path = .inline site key :: definer.path) ∧
      (∀ q, live q → pathKind definer.path <:+ q →
        q = pathKind definer.path ∨ pathKind path <:+ q) ∧ definer.Lives live A
  | .block id definer => path = .block id :: definer.path ∧ definer.Lives live A

end

/-- No live scope is nested in that of the body. -/
def BodyContext.Innermost (live : LiveScopes) (a : BodyContext) : Prop :=
  ∀ q, live q → pathKind a.path <:+ q → q = pathKind a.path

section Entering

variable {live live' : LiveScopes} {A A' : SlotSet} {q : PathKind}

theorem cons_not_suffix {level : LevelKind} : ¬ level :: q <:+ q := by
  intro nested
  have shorter := nested.length_le
  simp only [List.length_cons] at shorter
  omega

/-- Paths that end alike are the same from there on. -/
theorem suffix_of_cons {level : LevelKind} {r : PathKind} (nested : level :: q <:+ r) : q <:+ r :=
  (List.suffix_cons level q).trans nested

namespace BodyContext.Lives

theorem path : {a : BodyContext} → a.Lives live A → live (pathKind a.path)
  | ⟨_, _, _, _, _, _⟩, lives => lives.1

theorem self : {a : BodyContext} → a.Lives live A → A a.selfSlot
  | ⟨_, _, _, _, _, _⟩, lives => lives.2.1

/-- Scopes that are entered inside the body do not disturb it. -/
theorem widen (more : ∀ p, live p → live' p) (slots : ∀ x, A x → A' x) : {a : BodyContext} →
    (∀ p, live' p → live p ∨ pathKind a.path <:+ p) → a.Lives live A → a.Lives live' A'
  | ⟨_, _, _, _, _, .body⟩, _, ⟨here, self, _⟩ => ⟨more _ here, slots _ self, trivial⟩
  | ⟨path, _, _, _, _, .expansion _ _ definer⟩, inside, ⟨here, self, ⟨site, key, nested⟩, apart, outer⟩ => by
    refine ⟨more _ here, slots _ self, ⟨site, key, nested⟩, fun q there within => ?_, ?_⟩
    · rcases inside q there with before | new
      · exact apart q before within
      · exact .inr new
    · refine widen more slots (fun p there => (inside p there).imp_right fun within => ?_) outer
      rw [nested] at within
      exact suffix_of_cons within
  | ⟨path, _, _, _, _, .block id definer⟩, inside, ⟨here, self, nested, outer⟩ => by
    refine ⟨more _ here, slots _ self, nested, ?_⟩
    refine widen more slots (fun p there => (inside p there).imp_right fun within => ?_) outer
    rw [nested] at within
    exact suffix_of_cons within

theorem mono {a : BodyContext} (lives : a.Lives live A) (slots : ∀ x, A x → A' x) :
    a.Lives live A' := lives.widen (fun _ => id) slots fun _ => .inl

theorem withTarget {a : BodyContext} (lives : a.Lives live A) (exit : ExitTarget)
    (run : RunTarget) : (a.withTarget exit run).Lives live A := by
  cases a
  exact lives

theorem methodBody : {a : BodyContext} → a.Lives live A → a.methodBody.Lives live A
  | ⟨_, _, _, _, _, .body⟩, lives => lives
  | ⟨_, _, _, _, _, .expansion _ _ _⟩, lives => lives
  | ⟨_, _, _, _, _, .block _ definer⟩, ⟨_, _, _, outer⟩ => methodBody (a := definer) outer

/-- The scope that a name belongs to is live. -/
theorem scopeOf {captures : CaptureTable} {name : String} : {a : BodyContext} → a.Lives live A →
    live (pathKind (a.scopeOf captures name).1)
  | ⟨_, _, _, _, _, .body⟩, lives => lives.1
  | ⟨_, _, _, _, _, .expansion _ _ _⟩, lives => lives.1
  | ⟨_, _, _, _, _, .block _ definer⟩, ⟨here, _, _, outer⟩ => by
    rw [BodyContext.scopeOf]
    split
    · exact here
    · split
      · exact here
      · split
        · exact here
        · exact scopeOf (a := definer) outer

end BodyContext.Lives

/-- A scope can be entered if no live scope is nested in it. -/
def LiveScopes.Admits (live : LiveScopes) (path : ScopeChain) : Prop :=
  ∀ q, live q → ¬ pathKind path <:+ q

theorem LiveScopes.Admits.innermost {path : ScopeChain} (admits : live.Admits path) {p : PathKind}
    (there : live.enter path p) (within : pathKind path <:+ p) : p = pathKind path :=
  there.resolve_left fun before => admits p before within

theorem BodyContext.Innermost.admits {a : BodyContext} (innermost : a.Innermost live)
    (level : ScopeLevel) : live.Admits (level :: a.path) := by
  intro q there within
  have same := innermost q there (suffix_of_cons within)
  rw [same] at within
  exact cons_not_suffix within

/-- An expansion is entered from the innermost scope. -/
theorem BodyContext.Lives.expansion {a : BodyContext} (lives : a.Lives live A)
    (innermost : a.Innermost live) (slots : ∀ x, A x → A' x) {site : NodeId} {key : Instantiation}
    {name : String} {selfType : Ty} {selfSlot : SlotId} (self : A' selfSlot)
    (targets : List (ExitTarget × RunTarget)) (block : Block) (id : SiteId) :
    BodyContext.Lives (live.enter (.inline site key :: a.path)) A'
      ⟨.inline site key :: a.path, name, selfType, selfSlot, targets, .expansion block id a⟩ := by
  refine ⟨.inr rfl, self, ⟨site, key, rfl⟩, fun q there within => ?_, ?_⟩
  · exact there.imp (fun before => innermost q before within)
      fun (new : q = _) => new ▸ List.suffix_refl _
  · exact lives.widen (fun _ => .inl) slots
      fun q there => there.imp_right fun (new : q = _) => new ▸ List.suffix_cons _ _

/-- The block of an expansion is entered from inside the expansion, past everything that is live
there. -/
theorem BodyContext.Lives.admits_block {a definer : BodyContext} {block : Block} {site : SiteId}
    (lives : a.Lives live A) (origin : a.methodBody.origin = .expansion block site definer) :
    live.Admits (.block block.id :: definer.path) := by
  have body := lives.methodBody
  rcases hb : a.methodBody with ⟨path, name, selfType, selfSlot, targets, o⟩
  rw [hb] at body origin
  cases origin
  obtain ⟨-, -, ⟨id, key, rfl⟩, apart, -⟩ := body
  intro q there within
  rcases apart q there (suffix_of_cons within) with rfl | expansion
  · exact cons_not_suffix within
  · have same := List.suffix_of_suffix_length_le within expansion (by simp [pathKind])
    have same := same.eq_of_length (by simp [pathKind])
    cases same

/-- The body around the block of an expansion is live, too. -/
theorem BodyContext.Lives.definer {a definer : BodyContext} {block : Block} {site : SiteId}
    (lives : a.Lives live A) (origin : a.methodBody.origin = .expansion block site definer) :
    definer.Lives live A := by
  have body := lives.methodBody
  rcases hb : a.methodBody with ⟨path, name, selfType, selfSlot, targets, o⟩
  rw [hb] at body origin
  cases origin
  exact body.2.2.2.2

theorem BodyContext.Lives.yielded {a definer : BodyContext} {block : Block} {site : SiteId}
    (lives : a.Lives live A) (slots : ∀ x, A x → A' x)
    (origin : a.methodBody.origin = .expansion block site definer) :
    (blockContext block site definer).Lives
      (live.enter (.block block.id :: definer.path)) A' := by
  have outer := lives.definer origin
  exact ⟨.inr rfl, slots _ outer.self, rfl, outer.widen (fun _ => .inl) slots
    fun q there => there.imp_right fun (new : q = _) => new ▸ List.suffix_cons _ _⟩

/-- A nested scope has the same root. -/
theorem rooted_cons (level : ScopeLevel) {path : ScopeChain} {root : LevelKind}
    (outer : (pathKind path).getLast? = some root) :
    (pathKind (level :: path)).getLast? = some root := by
  rw [pathKind] at outer
  rw [pathKind, List.map_cons, List.getLast?_cons, outer]
  rfl

end Entering

section Slots

variable {cx : Setting} {live live' : LiveScopes} {f g : FrameSlots} {x y : SlotId}
  {key k : ScopeVar}

/-- The slot is that of no variable, or of one in a live scope. -/
def FrameSlots.Kept (live : LiveScopes) (f : FrameSlots) (x : SlotId) : Prop :=
  ∃ name key, f.labels[x.val]? = some (x, name, key) ∧ ∀ k ∈ key, live (pathKind k.path)

/-- The slot is that of a variable in a scope that is not live. -/
def FrameSlots.Loose (live : LiveScopes) (f : FrameSlots) (x : SlotId) : Prop :=
  ∃ name k, f.labels[x.val]? = some (x, name, some k) ∧ ¬ live (pathKind k.path)

theorem FrameSlots.Kept.mono (kept : f.Kept live x) (longer : f.labels <+: g.labels)
    (more : ∀ p, live p → live' p) : g.Kept live' x := by
  obtain ⟨name, key, found, inside⟩ := kept
  exact ⟨name, key, labels_mono longer found, fun k same => more _ (inside k same)⟩

theorem FrameSlots.Loose.mono (loose : f.Loose live' x) (longer : f.labels <+: g.labels)
    (more : ∀ p, live p → live' p) : g.Loose live x := by
  obtain ⟨name, k, found, outside⟩ := loose
  exact ⟨name, k, labels_mono longer found, fun there => outside (more _ there)⟩

theorem FrameSlots.Kept.not_loose (kept : f.Kept live x) : ¬ f.Loose live x := by
  rintro ⟨name, k, found, outside⟩
  obtain ⟨name', key, found', inside⟩ := kept
  rw [found] at found'
  cases found'
  exact outside (inside k rfl)

/-- A slot is that of one variable. -/
theorem FrameSlots.Holds.unique (holds : f.Holds cx x key) (other : f.Holds cx x k) :
    key.kind = k.kind := by
  obtain ⟨k₁, found, -, same⟩ := holds
  obtain ⟨k₂, found', -, same'⟩ := other
  have one : k₁.name = k₂.name ∧ k₁ = k₂ := by simpa using found.symm.trans found'
  rw [← same, ← same', one.2]

theorem FrameSlots.Holds.kept (holds : f.Holds cx x key) (there : live (pathKind key.path)) :
    f.Kept live x := by
  obtain ⟨k, found, -, same⟩ := holds
  refine ⟨k.name, some k, found, fun k' own => ?_⟩
  cases own
  rwa [show pathKind k.path = pathKind key.path from congrArg VarKind.path same]

theorem FrameSlots.Holds.loose (holds : f.Holds cx x key) (outside : ¬ live (pathKind key.path)) :
    f.Loose live x := by
  obtain ⟨k, found, -, same⟩ := holds
  refine ⟨k.name, k, found, ?_⟩
  rwa [show pathKind k.path = pathKind key.path from congrArg VarKind.path same]

/-- A variable is found where it is, whatever slots come in. -/
theorem FrameSlots.find?_mono (longer : f.labels <+: g.labels) (found : f.find? key = some x) :
    g.find? key = some x := by
  have listed (h : FrameSlots) : h.find? key =
      (h.labels.find? fun label => label.2.2 == some key).map (·.1) := by
    rw [FrameSlots.find?, FrameSlots.labels, List.find?_map]
    simp only [Option.map_map]
    rfl
  rw [listed] at found ⊢
  obtain ⟨rest, whole⟩ := longer
  obtain ⟨label, here, same⟩ := Option.map_eq_some_iff.1 found
  rw [← whole, List.find?_append, here]
  exact congrArg some same

/-- A slot that has been asked for is found. -/
theorem FrameSlots.find?_slotFor (self : (key == key) = true) :
    (f.slotFor key).2.find? key = some (f.slotFor key).1 := by
  rw [FrameSlots.slotFor]
  cases found : f.find? key with
  | some id => exact found
  | none =>
    simp only [FrameSlots.find?, Option.map_eq_none_iff] at found
    have same : (some key == some key) = true := by simpa using self
    simp [FrameSlots.find?, List.find?_append, found, same]

/-- A variable that has been looked up is found. -/
theorem FrameSlots.find?_lookedUp (self : (key == key) = true) (captured : Bool) :
    (lookedUp f key captured).find? key = some (f.slotFor key).1 := by
  have found := FrameSlots.find?_slotFor (f := f) self
  rw [lookedUp]
  split
  · exact FrameSlots.find?_mono (update_labels _ _ fun _ => ⟨rfl, rfl⟩) found
  · exact found

theorem FrameSlots.Keyed.find?_kind (keyed : f.Keyed (ScopeVar.Known cx .all))
    (left : key.Known cx .all) (right : k.Known cx .all) (same : key.kind = k.kind) :
    f.find? key = f.find? k := by
  rw [FrameSlots.find?, FrameSlots.find?]
  refine congrArg _ (List.find?_congr fun entry member => ?_)
  rcases entry with ⟨slot, l⟩
  cases l with
  | none => rfl
  | some l =>
    have known := (keyed.keys _ member l rfl).1
    change (l == key) = (l == k)
    rw [Bool.eq_iff_iff, ScopeVar.beq_iff known.proper left.proper,
      ScopeVar.beq_iff known.proper right.proper, same]

theorem FrameSlots.Keyed.find?_holds (keyed : f.Keyed (ScopeVar.Known cx .all))
    (known : key.Known cx .all) (found : f.find? key = some x) : f.Holds cx x key := by
  have same : f.slotFor key = (x, f) := by rw [FrameSlots.slotFor, found]
  have holds := keyed.slotFor_holds known
  rwa [same] at holds

/-- The slots within a scope are those of variables of the scope and of scopes nested in it. -/
theorem FrameSlots.Keyed.mem_slotsWithin (keyed : f.Keyed (ScopeVar.Known cx .all))
    {outer : ScopeChain} (proper : ProperPath outer) (within : x ∈ f.slotsWithin outer) :
    ∃ k, f.Holds cx x k ∧ pathKind outer <:+ pathKind k.path := by
  obtain ⟨⟨slot, l⟩, inside, rfl⟩ := List.mem_map.1 within
  obtain ⟨member, nested⟩ := List.mem_filter.1 inside
  cases l with
  | none => cases nested
  | some k =>
    obtain ⟨known, name⟩ := keyed.keys _ member k rfl
    obtain ⟨i, place⟩ := List.mem_iff_getElem?.1 member
    have numbered : slot.id = ⟨i⟩ := keyed.numbered i _ place
    refine ⟨k, ⟨k, ?_, known, rfl⟩, (isWithin_iff known.proper proper).1 nested⟩
    simp [FrameSlots.labels, numbered, place, ← name]

/-- Entering a scope empties only slots of scopes that are not live. -/
theorem FrameSlots.Keyed.slotsWithin_loose (keyed : f.Keyed (ScopeVar.Known cx .all))
    {outer : ScopeChain} (proper : ProperPath outer) (admits : live.Admits outer)
    (within : x ∈ f.slotsWithin outer) : f.Loose live x := by
  obtain ⟨k, holds, nested⟩ := keyed.mem_slotsWithin proper within
  exact holds.loose fun there => admits _ there nested

end Slots

end TypedBlocks.Inference

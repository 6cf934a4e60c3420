import TypedBlocks.Proofs.FixedTables
import TypedBlocks.Proofs.OwnedSlots

/-!
# Slots and the variables they stand for

A slot stands for one variable, up to sameness of the types in its scope, as long as its frame is
built, and takes its type from the tables. The slots of `self` and of operands stand for no variable
of the text; code knows them by what they are bound to.
-/
namespace TypedBlocks.Inference

open Typed (InstanceId SlotId Slot Context)
open Pass

section Labels

/-- The slot is that of the variable, or of one that is the same. -/
def FrameSlots.Holds (cx : Setting) (f : FrameSlots) (id : SlotId) (key : ScopeVar) : Prop :=
  ∃ k, f.labels[id.val]? = some (id, k.name, some k) ∧ k.Known cx .all ∧ k.kind = key.kind

/-- The slot is that of no variable of the text. -/
def FrameSlots.Hides (f : FrameSlots) (id : SlotId) : Prop :=
  ∃ name key, f.labels[id.val]? = some (id, name, key) ∧
    (name = "self" ∨ "%tmp".toList <+: name.toList)

variable {cx : Setting} {f g : FrameSlots} {id : SlotId} {key : ScopeVar}

theorem labels_mono (longer : f.labels <+: g.labels) {i : Nat}
    {label : SlotId × String × Option ScopeVar} (found : f.labels[i]? = some label) :
    g.labels[i]? = some label := by
  obtain ⟨rest, whole⟩ := longer
  rw [← whole, List.getElem?_append_left (List.getElem?_eq_some_iff.1 found).1, found]

theorem FrameSlots.Holds.mono (holds : f.Holds cx id key) (longer : f.labels <+: g.labels) :
    g.Holds cx id key := by
  obtain ⟨k, found, rest⟩ := holds
  exact ⟨k, labels_mono longer found, rest⟩

/-- The slots that are bound in the context are those of no variables, and they are there already. -/
def FrameSlots.Sees (f : FrameSlots) (Γ : Context) : Prop := ∀ b ∈ Γ.bound, f.Hides b.1

theorem FrameSlots.Hides.mono (hides : f.Hides id) (longer : f.labels <+: g.labels) :
    g.Hides id := by
  obtain ⟨name, key, found, rest⟩ := hides
  exact ⟨name, key, labels_mono longer found, rest⟩

theorem FrameSlots.Hides.lt (hides : f.Hides id) : id.val < f.slots.length := by
  obtain ⟨name, key, found, -⟩ := hides
  simpa [FrameSlots.labels] using (List.getElem?_eq_some_iff.1 found).1

theorem FrameSlots.Sees.mono {Γ : Context} (sees : f.Sees Γ) (longer : f.labels <+: g.labels) :
    g.Sees Γ := fun b member => (sees b member).mono longer

theorem FrameSlots.Holds.hides (holds : f.Holds cx id key) (self : key.name = "self") :
    f.Hides id := by
  obtain ⟨k, found, -, same⟩ := holds
  exact ⟨k.name, k, found, .inl ((congrArg VarKind.name same).trans self)⟩

theorem FrameSlots.Keyed.slotFor_holds (keyed : f.Keyed (ScopeVar.Known cx .all))
    (known : key.Known cx .all) : (f.slotFor key).2.Holds cx (f.slotFor key).1 key := by
  rw [FrameSlots.slotFor]
  split
  · rename_i id found
    obtain ⟨⟨slot, k⟩, here, rfl⟩ := Option.map_eq_some_iff.1 found
    have member := List.mem_of_find?_eq_some here
    obtain ⟨i, place⟩ := List.mem_iff_getElem?.1 member
    have numbered : slot.id = ⟨i⟩ := keyed.numbered i _ place
    have same : (k == some key) = true := by simpa using List.find?_some here
    cases k with
    | none => cases same
    | some k =>
      obtain ⟨known', name⟩ := keyed.keys _ member k rfl
      refine ⟨k, ?_, known', (ScopeVar.beq_iff known'.proper known.proper).1 same⟩
      simp [FrameSlots.labels, numbered, place, ← name]
  · exact ⟨key, by simp [FrameSlots.labels], known, rfl⟩

theorem selfBound_holds (keyed : f.Keyed (ScopeVar.Known cx .all)) {path : ScopeChain} {t : Ty}
    (known : ScopeVar.Known cx .all ⟨path, "self"⟩) :
    (selfBound f path t).2.Holds cx (selfBound f path t).1 ⟨path, "self"⟩ :=
  (keyed.slotFor_holds known).mono (update_labels _ _ fun _ => ⟨rfl, rfl⟩)

theorem selfBound_hides (keyed : f.Keyed (ScopeVar.Known cx .all)) {path : ScopeChain} {t : Ty}
    (known : ScopeVar.Known cx .all ⟨path, "self"⟩) :
    (selfBound f path t).2.Hides (selfBound f path t).1 :=
  (selfBound_holds keyed known).hides rfl

theorem lookedUp_holds (keyed : f.Keyed (ScopeVar.Known cx .all)) (known : key.Known cx .all)
    (captured : Bool) : (lookedUp f key captured).Holds cx (f.slotFor key).1 key := by
  have holds := keyed.slotFor_holds known
  rw [lookedUp]
  split
  · exact holds.mono (update_labels _ _ fun _ => ⟨rfl, rfl⟩)
  · exact holds

theorem tempSlot_hides (t : Ty) : (f.tempSlot t).2.Hides (f.tempSlot t).1 := by
  refine ⟨"%tmp" ++ toString f.temps, none, ?_, .inr ?_⟩
  · simp [FrameSlots.labels, FrameSlots.tempSlot]
  · rw [String.toList_append]
    exact List.prefix_append _ _

/-- The frame without the types that it has of its own. -/
def FrameSlots.untyped (f : FrameSlots) : FrameSlots :=
  { f with slots := f.slots.map fun e => ({ e.1 with ty := none }, e.2) }

theorem FrameSlots.untyped_labels (f : FrameSlots) : f.untyped.labels = f.labels := by
  simp [FrameSlots.labels, FrameSlots.untyped]

end Labels

section Types

variable {cx : Setting} {F : Tables} {f : FrameSlots} {id : SlotId} {key k : ScopeVar} {t : Ty}

/-- Variables that are the same have one entry. -/
theorem Tables.Known.var?_kind (known : F.Known cx .all) (left : key.Known cx .all)
    (right : k.Known cx .all) (same : k.kind = key.kind) : F.var? k = F.var? key :=
  lookup_kind (P := ScopeVar.Proper) (fun _ _ => ScopeVar.beq_iff)
    (fun e member => (known.vars.each e member).1.1.proper) right.proper left.proper same

theorem FrameSlots.Holds.typed (holds : f.Holds cx id key) (tables : F.Known cx .all)
    (known : key.Known cx .all) (entry : F.var? key = some t) :
    ∃ slot, (f.typedSlots F)[id.val]? = some slot ∧ slot.ty = some t := by
  obtain ⟨k, found, known', same⟩ := holds
  rw [← tables.var?_kind known known' same] at entry
  simp only [FrameSlots.labels, List.getElem?_map, Option.map_eq_some_iff] at found
  obtain ⟨⟨slot, k'⟩, place, label⟩ := found
  simp only [Prod.mk.injEq] at label
  obtain ⟨rfl, -, rfl⟩ := label
  simp [FrameSlots.typedSlots, place, entry]

/-- The slot has an entry that covers the type. -/
def FrameSlots.Takes (cx : Setting) (F : Tables) (f : FrameSlots) (id : SlotId) (t : Ty) : Prop :=
  ∃ key u, f.Holds cx id key ∧ key.Known cx .all ∧ F.var? key = some u ∧ t ≤ u

theorem FrameSlots.Takes.mono {g : FrameSlots} (takes : f.Takes cx F id t)
    (longer : f.labels <+: g.labels) : g.Takes cx F id t := by
  obtain ⟨key, u, holds, rest⟩ := takes
  exact ⟨key, u, holds.mono longer, rest⟩

theorem FrameSlots.Takes.typed (takes : f.Takes cx F id t) (tables : F.Known cx .all) :
    ∃ slot u, (f.typedSlots F)[id.val]? = some slot ∧ slot.ty = some u ∧ u.Proper ∧ t ≤ u := by
  obtain ⟨key, u, holds, known, entry, below⟩ := takes
  obtain ⟨slot, found, typed⟩ := holds.typed tables known entry
  exact ⟨slot, u, found, typed, (tables.vars.lookup entry).proper, below⟩

/-- The slot has the type of its entry, whether or not it has a type of its own. -/
theorem FrameSlots.Takes.slotTys (takes : f.Takes cx F id t) (tables : F.Known cx .all) :
    ∃ u, Context.slotTy? ⟨f.untyped.typedSlots F, []⟩ id = some u ∧
      Context.slotTy? ⟨f.typedSlots F, []⟩ id = some u := by
  obtain ⟨key, u, holds, known, entry, -⟩ := takes
  have both {g : FrameSlots} (same : f.labels <+: g.labels) :
      Context.slotTy? ⟨g.typedSlots F, []⟩ id = some u := by
    obtain ⟨slot, found, typed⟩ := (holds.mono same).typed tables known entry
    rw [Context.slotTy?, Context.slot?, found, Option.bind_some, typed]
  exact ⟨u, both (f.untyped_labels ▸ List.prefix_refl _), both (List.prefix_refl _)⟩

theorem FrameSlots.Hides.hidden (hides : f.Hides id) (F : Tables) :
    ∃ slot, (f.typedSlots F)[id.val]? = some slot ∧ ¬ slot.isSource := by
  obtain ⟨name, key, found, hidden⟩ := hides
  simp only [FrameSlots.labels, List.getElem?_map, Option.map_eq_some_iff] at found
  obtain ⟨⟨slot, k⟩, place, label⟩ := found
  simp only [Prod.mk.injEq] at label
  obtain ⟨rfl, rfl, rfl⟩ := label
  have named : ¬ slot.isSource := by
    rcases hidden with self | temp
    · simp [Slot.isSource, self]
    · rw [Slot.isSource, List.isPrefixOf_iff_prefix.2 temp, Bool.not_true, Bool.and_false]
      exact Bool.false_ne_true
  simp only [FrameSlots.typedSlots, List.getElem?_map, place, Option.map_some, Option.some.injEq,
    exists_eq_left']
  split <;> exact named

end Types

section Views

mutual

/-- What `self` stands for is bound, also in the bodies that a block stands in and the calls it is
given to. -/
def BodyContext.Bound (bound : List (SlotId × Ty)) : BodyContext → Prop
  | ⟨_, _, selfType, selfSlot, _, origin⟩ => (selfSlot, selfType) ∈ bound ∧ origin.Bound bound

def Origin.Bound (bound : List (SlotId × Ty)) : Origin → Prop
  | .body => True
  | .expansion _ _ definer | .block _ definer => definer.Bound bound

end

/-- The context that code of a place is checked in, once the frame of the method is finished. -/
structure View (F : Tables) (a : BodyContext) (f : FrameSlots) (Γ : Context) : Prop where
  slots : ∃ g : FrameSlots, f.labels <+: g.labels ∧ Γ.slots = g.typedSlots F
  self : a.Bound Γ.bound
  hidden : ∀ b ∈ Γ.bound, Γ.Hidden b.1

variable {cx : Setting} {F : Tables} {a : BodyContext} {f g : FrameSlots} {Γ : Context} {id : SlotId}
  {key : ScopeVar} {t u : Ty} {bound more : List (SlotId × Ty)}

mutual

theorem BodyContext.Bound.mono (wider : ∀ b ∈ bound, b ∈ more) :
    {a : BodyContext} → a.Bound bound → a.Bound more
  | ⟨_, _, _, _, _, _⟩, ⟨self, origin⟩ => ⟨wider _ self, origin.mono wider⟩

theorem Origin.Bound.mono (wider : ∀ b ∈ bound, b ∈ more) :
    {o : Origin} → o.Bound bound → o.Bound more
  | .body, _ => trivial
  | .expansion _ _ _, definer => BodyContext.Bound.mono wider definer
  | .block _ _, definer => BodyContext.Bound.mono wider definer

end

theorem BodyContext.Bound.self {a : BodyContext} (inside : a.Bound bound) :
    (a.selfSlot, a.selfType) ∈ bound := by
  cases a
  exact inside.1

theorem BodyContext.Bound.withTarget {a : BodyContext} (inside : a.Bound bound)
    (exit : ExitTarget) (run : RunTarget) : (a.withTarget exit run).Bound bound := by
  cases a
  exact inside

theorem BodyContext.Bound.methodBody : {a : BodyContext} → a.Bound bound →
    a.methodBody.Bound bound
  | ⟨_, _, _, _, _, .block _ definer⟩, inside => BodyContext.Bound.methodBody (a := definer) inside.2
  | ⟨_, _, _, _, _, .body⟩, inside => inside
  | ⟨_, _, _, _, _, .expansion _ _ _⟩, inside => inside

theorem BodyContext.Bound.yielded {a definer : BodyContext} {block : Block} {site : SiteId}
    (inside : a.Bound bound) (origin : a.methodBody.origin = .expansion block site definer) :
    (blockContext block site definer).Bound bound := by
  have body := inside.methodBody
  rcases hb : a.methodBody with ⟨path, name, selfType, selfSlot, targets, o⟩
  rw [hb] at body origin
  cases origin
  exact ⟨BodyContext.Bound.self body.2, body.2⟩

namespace View

theorem back (view : View F a g Γ) (longer : f.labels <+: g.labels) : View F a f Γ where
  slots := by
    obtain ⟨h, whole, same⟩ := view.slots
    exact ⟨h, longer.trans whole, same⟩
  self := view.self
  hidden := view.hidden

theorem hides (view : View F a f Γ) (hides : f.Hides id) : Γ.Hidden id := by
  obtain ⟨g, longer, slots⟩ := view.slots
  rw [Context.Hidden, Context.slot?, slots]
  exact (hides.mono longer).hidden F

/-- A context in which more is bound to slots that are hidden. -/
theorem bind (view : View F a f Γ) (hides : ∀ b ∈ bound, f.Hides b.1) :
    View F a f (Γ.bind bound) where
  slots := view.slots
  self := view.self.mono fun _ member => List.mem_append_right _ member
  hidden b member := by
    rcases List.mem_append.1 member with new | old
    · exact view.hides (hides b new)
    · exact view.hidden b old

theorem inLoop {here : Place} (view : View F here.activation f Γ) (id : NodeId) (loop : LoopId) :
    View F (here.inLoop id loop).activation f Γ :=
  { view with self := view.self.withTarget _ _ }

theorem yielded {definer : BodyContext} {block : Block} {site : SiteId} (view : View F a f Γ)
    (origin : a.methodBody.origin = .expansion block site definer) :
    View F (blockContext block site definer) f Γ :=
  { view with self := view.self.yielded origin }

/-- The body of an expansion, with what `self` stands for in it. -/
theorem expansion {here : Place} {call : CallSyntax} {key : Instantiation} {s : PassState}
    (view : View F here.activation f Γ) (m : MethodEntry) (block : Block)
    (hides : f.Hides (expansionSelf here call key s).1) :
    View F (expansionPlace here call m key block s).activation f
      (Γ.bind [((expansionSelf here call key s).1, key.selfType)]) :=
  { view.bind fun _ only => List.mem_singleton.1 only ▸ hides with
    self := ⟨List.mem_cons_self, view.self.mono fun _ member => List.mem_append_right _ member⟩ }

theorem slotTy (view : View F a f Γ) (holds : f.Holds cx id key) (tables : F.Known cx .all)
    (known : key.Known cx .all) (entry : F.var? key = some t) : Γ.slotTy? id = some t := by
  obtain ⟨g, longer, slots⟩ := view.slots
  obtain ⟨slot, found, typed⟩ := (holds.mono longer).typed tables known entry
  rw [Context.slotTy?, Context.slot?, slots, found, Option.bind_some, typed]

theorem stores (view : View F a f Γ) (takes : f.Takes cx F id t) (tables : F.Known cx .all) :
    Γ.Stores id (some t) := by
  obtain ⟨key, u, holds, known, entry, below⟩ := takes
  exact ⟨t, u, rfl, view.slotTy holds tables known entry, below⟩

theorem reads_self (view : View F a f Γ) : Γ.Reads a.selfSlot a.selfType :=
  .inr ⟨view.self.self, view.hidden _ view.self.self⟩

theorem holdsObject (view : View F a f Γ) {c : String} (object : a.objectClass? = some c) :
    Γ.HoldsObject a.selfSlot c := by
  rw [BodyContext.objectClass?] at object
  split at object
  · rename_i name vs only
    cases object
    exact ⟨_, vs, view.self.self, only⟩
  · cases object

end View

end Views

end TypedBlocks.Inference

import TypedBlocks.Inference.Tables
import TypedBlocks.Proofs.CarriedExits
import TypedBlocks.Proofs.DefiniteAssignment
import TypedBlocks.Proofs.TypedOperations

/-!
# Typed machines

A machine is typed if its globals, constants and instance variables hold values of their types, and
its frame is typed at a place if the slots that are assigned do, and those that are bound there hold
values of what they are bound to. The classes of all objects made so far are known on the side: an
object type says of a value only which class it is of. Every step of evaluation has its lemma here.
-/
namespace TypedBlocks

open Typed (SlotId Signatures Context)
open Inference (bare updateAt lookup_updateAt_self lookup_updateAt_ne)

/-- The value is of the type, and if it is an object, it is one of the listed ones. -/
structure Value.Fits (classes : List String) (v : Value) (t : Ty) : Prop where
  isOf : v.isOf t
  listed : ∀ r, v = .object r → classes[r.index]? = some r.className

namespace Value.Fits

variable {classes classes' : List String} {v : Value} {t u : Ty}

theorem mono (fits : v.Fits classes t) (more : classes <+: classes') : v.Fits classes' t where
  isOf := fits.isOf
  listed r same := by
    obtain ⟨rest, rfl⟩ := more
    have found := fits.listed r same
    rw [List.getElem?_append_left (List.getElem?_eq_some_iff.1 found).1, found]

theorem retype (fits : v.Fits classes t) (isOf : v.isOf u) : v.Fits classes u := ⟨isOf, fits.listed⟩

theorem le (fits : v.Fits classes t) (left : t.Proper) (right : u.Proper) (below : t ≤ u) :
    v.Fits classes u := fits.retype (Ty.isOf_le left right below fits.isOf)

theorem plain (isOf : v.isOf t) (plain : ∀ r, v ≠ .object r) : v.Fits classes t :=
  ⟨isOf, fun r same => absurd same (plain r)⟩

/-- Listed objects stay listed when other types are found for values. -/
theorem retype_all {vs : List Value} {ts us : List Ty}
    (fits : List.Forall₂ (fun v t => Value.Fits classes v t) vs ts)
    (members : List.Forall₂ (fun v t => v.isOfMember t = true) vs us) :
    List.Forall₂ (fun v t => Value.Fits classes v t) vs us := by
  induction fits generalizing us with
  | nil =>
    cases members
    exact .nil
  | cons first _ ih =>
    cases members with
    | cons member members => exact .cons (first.retype (Ty.isOf_of_member member)) (ih members)

theorem ordinary (fits : v.Fits classes t) (known : ∀ c ∈ classes, c ∉ valueClasses) :
    v.Ordinary := fun r same => known _ (List.mem_of_getElem? (fits.listed r same))

end Value.Fits

namespace Machine

variable {m : Machine}

theorem bindings_set_eq (name : String) (v : Value) :
    Bindings.set name v = updateAt name v fun _ => v := by
  funext bs
  induction bs with
  | nil => rfl
  | cons b bs ih => rw [Bindings.set, updateAt, ih]

/-- After a variable is set, it has the value, and all others have theirs. -/
theorem lookup_set {name n : String} {v w : Value} {bs : Bindings}
    (found : (Bindings.set name v bs).lookup n = some w) :
    n = name ∧ w = v ∨ bs.lookup n = some w := by
  rw [bindings_set_eq] at found
  by_cases same : n = name
  · subst same
    rw [lookup_updateAt_self] at found
    refine .inl ⟨rfl, ?_⟩
    cases before : bs.lookup n <;> rw [before] at found <;> cases found <;> rfl
  · rw [lookup_updateAt_ne same] at found
    exact .inr found

/-- Changes of slots leave everything else as it is. -/
theorem clearSlots_eq (ss : List SlotId) :
    m.clearSlots ss = { m with slots := (m.clearSlots ss).slots } := by
  induction ss generalizing m with
  | nil => rfl
  | cons s ss ih => exact ih (m := m.setSlot s .nil)

theorem bindSlots_eq (ss : List SlotId) (vs : List Value) :
    m.bindSlots ss vs = { m with slots := (m.bindSlots ss vs).slots } := by
  induction ss generalizing m vs with
  | nil => rfl
  | cons s ss ih =>
    cases vs with
    | nil => rfl
    | cons v vs => exact ih (m := m.setSlot s v) vs

theorem bindOrClear_eq (ss : List SlotId) (vs : List Value) :
    m.bindOrClear ss vs = { m with slots := (m.bindOrClear ss vs).slots } := by
  induction ss generalizing m vs with
  | nil => rfl
  | cons s ss ih =>
    cases vs with
    | nil => exact ih (m := m.setSlot s .nil) []
    | cons v vs => exact ih (m := m.setSlot s v) vs

theorem slots_only {n k : Machine} (first : n = { m with slots := n.slots })
    (second : k = { n with slots := k.slots }) : k = { m with slots := k.slots } :=
  second.trans (by rw [first])

/-- A slot that is bound has one of the values that it is bound to. -/
theorem slot_bindSlots_mem {x : SlotId} {ss : List SlotId} {vs : List Value}
    (bound : x ∈ boundSlots ss vs) : (x, (m.bindSlots ss vs).slot x) ∈ ss.zip vs := by
  induction ss generalizing m vs with
  | nil => cases bound
  | cons s ss ih =>
    cases vs with
    | nil => cases bound
    | cons v vs =>
      rw [bindSlots, List.zip_cons_cons]
      by_cases later : x ∈ boundSlots ss vs
      · exact List.mem_cons_of_mem _ (ih later)
      · have here : x = s := (List.mem_cons.1 bound).resolve_right later
        rw [slot_bindSlots _ later, slot_setSlot, if_pos here, here]
        exact List.mem_cons_self

theorem slot_bindOrClear_mem {x : SlotId} {ss : List SlotId} {vs : List Value}
    (bound : x ∈ boundSlots ss vs) (given : x ∉ ss.drop vs.length) :
    (x, (m.bindOrClear ss vs).slot x) ∈ ss.zip vs := by
  induction ss generalizing m vs with
  | nil => cases bound
  | cons s ss ih =>
    cases vs with
    | nil => cases bound
    | cons v vs =>
      rw [bindOrClear, List.zip_cons_cons]
      by_cases later : x ∈ boundSlots ss vs
      · exact List.mem_cons_of_mem _ (ih later given)
      · have here : x = s := (List.mem_cons.1 bound).resolve_right later
        rw [(slot_bindOrClear _ ss vs).2 given later, slot_setSlot, if_pos here, here]
        exact List.mem_cons_self

end Machine

namespace Typed

/-- The types that are used to check others are proper. -/
structure Signatures.Proper (σ : Signatures) : Prop where
  globals : ∀ name t, σ.globals.lookup name = some t → t.Proper
  constants : ∀ name t, σ.constants.lookup name = some t → t.Proper
  vars : ∀ c name t, (σ.vars c).lookup name = some t → t.Proper
  objects : ∀ c, (σ.objectTy c).Proper

/-- Objects, globals and constants hold values of their types. -/
structure Stored (σ : Signatures) (classes : List String) (m : Machine) : Prop where
  ordinary : ∀ c ∈ classes, c ∉ valueClasses
  size : m.heap.size = classes.length
  vars : ∀ (i : Nat) c name v, classes[i]? = some c →
    (m.heap.getD i []).lookup name = some v → v.Fits classes (σ.instanceTy c name)
  globals : ∀ name v, m.globals.lookup name = some v →
    v.Fits classes ((σ.globals.lookup name).getD Ty.nil)
  constants : ∀ name v, m.constants.lookup name = some v →
    v.Fits classes ((σ.constants.lookup name).getD Ty.nil)

/-- The slots of the frame hold values of their types, or nil while they are not assigned. -/
structure Framed (Γ : Context) (classes : List String) (m : Machine) (assigned : List SlotId) :
    Prop where
  unassigned : ∀ s, s ∉ assigned → m.slot s = .nil
  slots : ∀ s t, s ∈ assigned → Γ.slotTy? s = some t → (m.slot s).Fits classes t
  bound : ∀ b ∈ Γ.bound, (m.slot b.1).Fits classes b.2

section Objects

variable {σ : Signatures} {classes : List String} {m : Machine} {v : Value} {t u : Ty}

theorem bare_proper (proper : t.Proper) : (bare t).Proper := by
  rw [bare]
  cases merged : Ty.merge? _ with
  | none => exact proper
  | some u =>
    refine Ty.merge?_proper (List.forall_mem_map.2 fun n member => ?_) merged
    have own := proper.members_proper n member
    cases n with
    | object name vs => exact .object name [] .nil (by rintro _ ⟨⟩)
    | _ => exact own

theorem isOf_bare (proper : t.Proper) (fits : v.isOf t) : v.isOf (bare t) := by
  refine Ty.isOf_mapMembers (fun n member => ?_) (fun n member fits => ?_) fits
  · have own := proper.members_proper n member
    cases n with
    | object name vs => exact .object name [] .nil (by rintro _ ⟨⟩)
    | _ => exact own
  · cases n with
    | object name vs => cases v <;> exact Ty.isOf_of_member fits
    | _ => exact Ty.isOf_of_member fits

theorem isOf_withLayouts (objects : ∀ c, (σ.objectTy c).Proper) (proper : t.Proper)
    (fits : v.isOf t) : v.isOf (σ.withLayouts t) := by
  refine Ty.isOf_mapMembers (fun n member => ?_) (fun n member fits => ?_) fits
  · have own := proper.members_proper n member
    cases n with
    | object name vs => exact objects name
    | _ => exact own
  · cases n with
    | object name vs => cases v <;> exact Ty.isOf_of_member fits
    | _ => exact Ty.isOf_of_member fits

end Objects

namespace Stored

variable {σ : Signatures} {classes : List String} {m : Machine} {v : Value} {t u : Ty}
  {name : String} (stored : Stored σ classes m)

include stored

theorem withSlots (slots : Array Value) : Stored σ classes { m with slots } :=
  ⟨stored.ordinary, stored.size, stored.vars, stored.globals, stored.constants⟩

theorem setGlobal (proper : σ.Proper) (fits : v.Fits classes t) (type : t.Proper)
    (entry : σ.globals.lookup name = some u) (below : t ≤ u) :
    Stored σ classes (m.setGlobal name v) where
  ordinary := stored.ordinary
  size := stored.size
  vars := stored.vars
  constants := stored.constants
  globals n w found := by
    rcases Machine.lookup_set found with ⟨rfl, rfl⟩ | before
    · rw [entry]
      exact fits.le type (proper.globals _ _ entry) below
    · exact stored.globals n w before

theorem setConstant (proper : σ.Proper) (fits : v.Fits classes t) (type : t.Proper)
    (entry : σ.constants.lookup name = some u) (below : t ≤ u) :
    Stored σ classes (m.setConstant name v) where
  ordinary := stored.ordinary
  size := stored.size
  vars := stored.vars
  globals := stored.globals
  constants n w found := by
    rcases Machine.lookup_set found with ⟨rfl, rfl⟩ | before
    · rw [entry]
      exact fits.le type (proper.constants _ _ entry) below
    · exact stored.constants n w before

theorem setInstanceVar {r : ObjectRef} (proper : σ.Proper) (fits : v.Fits classes t)
    (type : t.Proper) (listed : classes[r.index]? = some r.className)
    (entry : (σ.vars r.className).lookup name = some u) (below : bare t ≤ u) :
    Stored σ classes (m.setInstanceVar (.object r) name v) where
  ordinary := stored.ordinary
  size := by
    rw [Machine.setInstanceVar, Array.size_modify]
    exact stored.size
  globals := stored.globals
  constants := stored.constants
  vars i c n w found there := by
    rw [Machine.setInstanceVar, Array.getD_eq_getD_getElem?, Array.getElem?_modify] at there
    split at there
    · rename_i same
      subst same
      cases listed.symm.trans found
      have inside : r.index < m.heap.size := by
        rw [stored.size]
        exact (List.getElem?_eq_some_iff.1 listed).1
      rw [Array.getElem?_eq_getElem inside, Option.map_some, Option.getD_some] at there
      rcases Machine.lookup_set there with ⟨rfl, rfl⟩ | before
      · refine fits.retype ?_
        have ofEntry := Ty.isOf_le (bare_proper type) (proper.vars _ _ _ entry) below
          (isOf_bare type fits.isOf)
        rw [Signatures.instanceTy, entry]
        exact isOf_withLayouts proper.objects (proper.vars _ _ _ entry) ofEntry
      · refine stored.vars _ _ n w found ?_
        rw [Array.getD_eq_getD_getElem?, Array.getElem?_eq_getElem inside]
        exact before
    · refine stored.vars i c n w found ?_
      rw [Array.getD_eq_getD_getElem?]
      exact there

/-- A new object has no variables yet. -/
theorem allocate {c : String} (plain : c ∉ valueClasses) :
    Stored σ (classes ++ [c]) (m.allocate c).2 ∧
      ∀ t, Value.isOf (m.allocate c).1 t → (m.allocate c).1.Fits (classes ++ [c]) t := by
  have more : classes <+: classes ++ [c] := List.prefix_append _ _
  refine ⟨?_, fun t isOf => ⟨isOf, fun r same => ?_⟩⟩
  · constructor
    · intro d member
      rcases List.mem_append.1 member with old | new
      · exact stored.ordinary d old
      · exact List.mem_singleton.1 new ▸ plain
    · simp [Machine.allocate, stored.size]
    · intro i d n w found there
      rw [Machine.allocate, Array.getD_eq_getD_getElem?, Array.getElem?_push] at there
      split at there
      · cases there
      · rename_i older
        have inside : i < classes.length := by
          have bound := (List.getElem?_eq_some_iff.1 found).1
          rw [List.length_append, List.length_singleton] at bound
          have size := stored.size
          omega
        rw [List.getElem?_append_left inside] at found
        refine (stored.vars i d n w found ?_).mono more
        rw [Array.getD_eq_getD_getElem?]
        exact there
    · exact fun n w found => (stored.globals n w found).mono more
    · exact fun n w found => (stored.constants n w found).mono more
  · cases same
    simp [stored.size]

end Stored

namespace Framed

variable {Γ : Context} {classes classes' : List String} {m m' : Machine} {v : Value} {t : Ty}
  {assigned assigned' ss : List SlotId} {s : SlotId} {vs : List Value}
  (framed : Framed Γ classes m assigned)

include framed

theorem mono (wider : classes <+: classes') : Framed Γ classes' m assigned where
  unassigned := framed.unassigned
  slots s t member typed := (framed.slots s t member typed).mono wider
  bound b member := (framed.bound b member).mono wider

theorem congr (slots : m'.slots = m.slots) (same : ∀ s, s ∈ assigned' ↔ s ∈ assigned) :
    Framed Γ classes m' assigned' := by
  have slot (s : SlotId) : m'.slot s = m.slot s := by rw [Machine.slot, slots, Machine.slot]
  constructor
  · intro s free
    rw [slot]
    exact framed.unassigned s fun member => free ((same s).2 member)
  · intro s t member typed
    rw [slot]
    exact framed.slots s t ((same s).1 member) typed
  · intro b member
    rw [slot]
    exact framed.bound b member

theorem setSlot (apart : ∀ b ∈ Γ.bound, b.1 ≠ s)
    (fits : ∀ t, Γ.slotTy? s = some t → v.Fits classes t) :
    Framed Γ classes (m.setSlot s v) (s :: assigned) where
  unassigned x free := by
    rw [List.mem_cons, not_or] at free
    rw [Machine.slot_setSlot, if_neg free.1]
    exact framed.unassigned x free.2
  slots x t member typed := by
    rw [Machine.slot_setSlot]
    split
    · rename_i same
      exact fits t (same ▸ typed)
    · rename_i other
      exact framed.slots x t ((List.mem_cons.1 member).resolve_left other) typed
  bound b member := by
    rw [Machine.slot_setSlot, if_neg (apart b member)]
    exact framed.bound b member

theorem clearSlots (apart : ∀ b ∈ Γ.bound, b.1 ∉ ss) :
    Framed Γ classes (m.clearSlots ss) (withoutSlots ss assigned) where
  unassigned x free := by
    rw [Machine.slot_clearSlots]
    split
    · rfl
    · rename_i outside
      exact framed.unassigned x fun member => free (mem_withoutSlots.2 ⟨member, outside⟩)
  slots x t member typed := by
    obtain ⟨old, outside⟩ := mem_withoutSlots.1 member
    rw [Machine.slot_clearSlots, if_neg outside]
    exact framed.slots x t old typed
  bound b member := by
    rw [Machine.slot_clearSlots, if_neg (apart b member)]
    exact framed.bound b member

theorem bindSlots (apart : ∀ b ∈ Γ.bound, b.1 ∉ boundSlots ss vs)
    (fits : ∀ b ∈ ss.zip vs, ∀ t, Γ.slotTy? b.1 = some t → b.2.Fits classes t) :
    Framed Γ classes (m.bindSlots ss vs) (boundSlots ss vs ++ assigned) where
  unassigned x free := by
    rw [List.mem_append, not_or] at free
    rw [Machine.slot_bindSlots _ free.1]
    exact framed.unassigned x free.2
  slots x t member typed := by
    by_cases here : x ∈ boundSlots ss vs
    · exact fits _ (Machine.slot_bindSlots_mem here) t typed
    · rw [Machine.slot_bindSlots _ here]
      exact framed.slots x t ((List.mem_append.1 member).resolve_left here) typed
  bound b member := by
    rw [Machine.slot_bindSlots _ (apart b member)]
    exact framed.bound b member

theorem bindOrClear (apart : ∀ b ∈ Γ.bound, b.1 ∉ ss)
    (fits : ∀ b ∈ ss.zip vs, ∀ t, Γ.slotTy? b.1 = some t → b.2.Fits classes t) :
    Framed Γ classes (m.bindOrClear ss vs)
      (withoutSlots (ss.drop vs.length) (boundSlots ss vs ++ assigned)) := by
  have slot (x : SlotId) := Machine.slot_bindOrClear m (x := x) ss vs
  constructor
  · intro x free
    rw [mem_withoutSlots, not_and', List.mem_append, not_or] at free
    by_cases missing : x ∈ ss.drop vs.length
    · exact (slot x).1 missing
    · rw [(slot x).2 missing (free missing).1]
      exact framed.unassigned x (free missing).2
  · intro x t member typed
    obtain ⟨member, given⟩ := mem_withoutSlots.1 member
    by_cases here : x ∈ boundSlots ss vs
    · exact fits _ (Machine.slot_bindOrClear_mem here given) t typed
    · rw [(slot x).2 given here]
      exact framed.slots x t ((List.mem_append.1 member).resolve_left here) typed
  · intro b member
    have outside := apart b member
    rw [(slot b.1).2 (fun late => outside (List.mem_of_mem_drop late)) fun here => outside ?_]
    · exact framed.bound b member
    · obtain ⟨c, inside, same⟩ := List.mem_map.1 here
      exact same ▸ (List.of_mem_zip inside).1

/-- More can be bound in the frame. -/
theorem bind (more : List (SlotId × Ty)) (fits : ∀ b ∈ more, (m.slot b.1).Fits classes b.2) :
    Framed (Γ.bind more) classes m assigned where
  unassigned := framed.unassigned
  slots := framed.slots
  bound b member := (List.mem_append.1 member).elim (fits b) (framed.bound b)

omit framed in
theorem unbind {more : List (SlotId × Ty)} (framed : Framed (Γ.bind more) classes m assigned) :
    Framed Γ classes m assigned where
  unassigned := framed.unassigned
  slots := framed.slots
  bound b member := framed.bound b (List.mem_append_right _ member)

end Framed

end Typed

end TypedBlocks

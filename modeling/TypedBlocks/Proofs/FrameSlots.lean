import TypedBlocks.Proofs.Growth

/-!
# Slots of a frame

The slots of a method are numbered by their places in its frame, and every slot that a pass hands
out is one of them.
-/
namespace TypedBlocks.Inference

open Typed (InstanceId SlotId Slot)
open Pass

/-- Every slot carries the number of its place. -/
def FrameSlots.Numbered (f : FrameSlots) : Prop :=
  ∀ (i : Nat) (entry : Slot × Option ScopeVar), f.slots[i]? = some entry → entry.1.id = ⟨i⟩

namespace FrameSlots.Numbered

variable {f : FrameSlots}

theorem empty : FrameSlots.empty.Numbered := by
  intro i entry found
  simp [FrameSlots.empty] at found

theorem mem_lt (numbered : f.Numbered) {entry : Slot × Option ScopeVar}
    (member : entry ∈ f.slots) : entry.1.id.val < f.slots.length := by
  obtain ⟨i, found⟩ := List.mem_iff_getElem?.1 member
  rw [numbered i entry found]
  exact (List.getElem?_eq_some_iff.1 found).1

theorem append (numbered : f.Numbered) {slot : Slot} (key : Option ScopeVar) (temps : Nat)
    (last : slot.id = ⟨f.slots.length⟩) :
    (⟨f.slots ++ [(slot, key)], temps⟩ : FrameSlots).Numbered := by
  intro i entry found
  simp only [List.getElem?_append] at found
  split at found
  · exact numbered i entry found
  · rename_i beyond
    have only := (List.getElem?_eq_some_iff.1 found).1
    simp only [List.length_singleton] at only
    have atEnd : i = f.slots.length := by omega
    subst atEnd
    simp only [Nat.sub_self, List.getElem?_cons_zero, Option.some.injEq] at found
    rw [← found]
    exact last

theorem find?_lt (numbered : f.Numbered) {key : ScopeVar} {id : SlotId}
    (found : f.find? key = some id) : id.val < f.slots.length := by
  obtain ⟨entry, at_key, rfl⟩ := Option.map_eq_some_iff.1 found
  exact numbered.mem_lt (List.mem_of_find?_eq_some at_key)

theorem slotFor (numbered : f.Numbered) (key : ScopeVar) : (f.slotFor key).2.Numbered := by
  rw [FrameSlots.slotFor]
  split
  · exact numbered
  · exact numbered.append (some key) f.temps rfl

theorem slotFor_lt (numbered : f.Numbered) (key : ScopeVar) :
    (f.slotFor key).1.val < (f.slotFor key).2.slots.length := by
  rw [FrameSlots.slotFor]
  split
  · rename_i found
    exact numbered.find?_lt found
  · simp

theorem tempSlot (numbered : f.Numbered) (t : Ty) : (f.tempSlot t).2.Numbered :=
  numbered.append none (f.temps + 1) rfl

theorem tempSlot_lt (f : FrameSlots) (t : Ty) :
    (f.tempSlot t).1.val < (f.tempSlot t).2.slots.length := by
  simp [FrameSlots.tempSlot]

theorem update (numbered : f.Numbered) (id : SlotId) {change : Slot → Slot}
    (keeps : ∀ slot, (change slot).id = slot.id) : (f.update id change).Numbered := by
  intro i entry found
  simp only [FrameSlots.update, List.getElem?_map, Option.map_eq_some_iff] at found
  obtain ⟨old, found, rfl⟩ := found
  have same := numbered i old found
  split
  · rw [keeps]
    exact same
  · exact same

theorem selfBound (numbered : f.Numbered) (path : ScopeChain) (t : Ty) :
    (selfBound f path t).2.Numbered := (numbered.slotFor _).update _ fun _ => rfl

theorem selfBound_lt (numbered : f.Numbered) (path : ScopeChain) (t : Ty) :
    (Pass.selfBound f path t).1.val < (Pass.selfBound f path t).2.slots.length := by
  simp only [Pass.selfBound, update_length]
  exact numbered.slotFor_lt _

theorem lookedUp (numbered : f.Numbered) (key : ScopeVar) (captured : Bool) :
    (lookedUp f key captured).Numbered := by
  rw [Pass.lookedUp]
  split
  · exact (numbered.slotFor key).update _ fun _ => rfl
  · exact numbered.slotFor key

theorem lookedUp_slot (numbered : f.Numbered) (key : ScopeVar) (captured : Bool) :
    (f.slotFor key).1.val < (Pass.lookedUp f key captured).slots.length := by
  rw [Pass.lookedUp]
  split
  · rw [update_length]
    exact numbered.slotFor_lt key
  · exact numbered.slotFor_lt key

theorem slotsWithin_lt (numbered : f.Numbered) (outer : ScopeChain) :
    ∀ id ∈ f.slotsWithin outer, id.val < f.slots.length := by
  intro id member
  obtain ⟨entry, within, rfl⟩ := List.mem_map.1 member
  exact numbered.mem_lt (List.mem_filter.1 within).1

theorem typedSlots (numbered : f.Numbered) (ts : Tables) {i : Nat} {slot : Slot}
    (found : (f.typedSlots ts)[i]? = some slot) : slot.id = ⟨i⟩ := by
  simp only [FrameSlots.typedSlots, List.getElem?_map, Option.map_eq_some_iff] at found
  obtain ⟨entry, found, rfl⟩ := found
  have same := numbered i entry found
  split <;> exact same

end FrameSlots.Numbered

theorem typedSlots_length (f : FrameSlots) (ts : Tables) :
    (f.typedSlots ts).length = f.slots.length := by
  simp [FrameSlots.typedSlots]

/-- The slots at hand are among those of the frame. -/
def FrameSlots.Has (f : FrameSlots) (ids : List SlotId) : Prop :=
  ∀ id ∈ ids, id.val < f.slots.length

section Binding

variable {s s' : PassState} {ids : List SlotId}

theorem bindVar_slot {path : ScopeChain} {name : String} {t : Ty} {id : SlotId}
    (numbered : s.frame.Numbered) (h : bindVar path name t s = some (id, s')) :
    s'.frame.Numbered ∧ id.val < s'.frame.slots.length := by
  rw [bindVar_run] at h
  cases h
  exact ⟨numbered.slotFor _, numbered.slotFor_lt _⟩

theorem bindVars_slots {path : ScopeChain} {ps : List Parameter} {ts : List Ty}
    (numbered : s.frame.Numbered) (h : bindVars path ps ts s = some (ids, s')) :
    s'.frame.Numbered ∧ s'.frame.Has ids := by
  induction ps generalizing ts ids s with
  | nil =>
    obtain ⟨rfl, rfl⟩ := pure_eq_some.1 h
    exact ⟨numbered, by simp [FrameSlots.Has]⟩
  | cons p ps ih =>
    cases ts with
    | nil =>
      obtain ⟨rfl, rfl⟩ := pure_eq_some.1 h
      exact ⟨numbered, by simp [FrameSlots.Has]⟩
    | cons t ts =>
      simp only [bindVars] at h
      obtain ⟨id, s₁, bound, h⟩ := bind_eq_some.1 h
      obtain ⟨rest, s₂, boundRest, h⟩ := bind_eq_some.1 h
      obtain ⟨rfl, rfl⟩ := pure_eq_some.1 h
      obtain ⟨numbered₁, first⟩ := bindVar_slot numbered bound
      obtain ⟨numbered₂, others⟩ := ih numbered₁ boundRest
      refine ⟨numbered₂, fun i member => ?_⟩
      rcases List.mem_cons.1 member with rfl | member
      · exact Nat.lt_of_lt_of_le first (bindVars_grows boundRest).slots
      · exact others i member

theorem bindVars_keeps {path : ScopeChain} {ps : List Parameter} {ts : List Ty}
    (h : bindVars path ps ts s = some (ids, s')) :
    s'.methods = s.methods ∧ s'.instances = s.instances := by
  induction ps generalizing ts ids s with
  | nil =>
    obtain ⟨-, rfl⟩ := pure_eq_some.1 h
    exact ⟨rfl, rfl⟩
  | cons p ps ih =>
    cases ts with
    | nil =>
      obtain ⟨-, rfl⟩ := pure_eq_some.1 h
      exact ⟨rfl, rfl⟩
    | cons t ts =>
      simp only [bindVars] at h
      rw [bind_run (bindVar_run _ _ _)] at h
      obtain ⟨rest, s₂, boundRest, h⟩ := bind_eq_some.1 h
      obtain ⟨-, rfl⟩ := pure_eq_some.1 h
      obtain ⟨methods, instances⟩ := ih boundRest
      exact ⟨methods, instances⟩

theorem bindVars_length {path : ScopeChain} {ps : List Parameter} {ts : List Ty}
    (h : bindVars path ps ts s = some (ids, s')) (arity : ps.length = ts.length) :
    ids.length = ts.length := by
  induction ps generalizing ts ids s with
  | nil =>
    obtain ⟨rfl, rfl⟩ := pure_eq_some.1 h
    exact arity
  | cons p ps ih =>
    cases ts with
    | nil => simp at arity
    | cons t ts =>
      simp only [bindVars] at h
      obtain ⟨id, s₁, bound, h⟩ := bind_eq_some.1 h
      obtain ⟨rest, s₂, boundRest, h⟩ := bind_eq_some.1 h
      obtain ⟨rfl, rfl⟩ := pure_eq_some.1 h
      rw [List.length_cons, List.length_cons, ih boundRest (by simpa using arity)]

theorem bindYielded_slots {path : ScopeChain} {ps : List BlockParameter}
    {parts : List Typed.Expr} (numbered : s.frame.Numbered)
    (h : bindYielded path ps parts s = some (ids, s')) :
    s'.frame.Numbered ∧ s'.frame.Has ids := by
  induction ps generalizing parts ids s with
  | nil =>
    obtain ⟨rfl, rfl⟩ := pure_eq_some.1 h
    exact ⟨numbered, by simp [FrameSlots.Has]⟩
  | cons p ps ih =>
    simp only [bindYielded] at h
    obtain ⟨id, s₁, bound, h⟩ := bind_eq_some.1 h
    obtain ⟨rest, s₂, boundRest, h⟩ := bind_eq_some.1 h
    obtain ⟨rfl, rfl⟩ := pure_eq_some.1 h
    obtain ⟨numbered₁, first⟩ := bindVar_slot numbered bound
    obtain ⟨numbered₂, others⟩ := ih numbered₁ boundRest
    refine ⟨numbered₂, fun i member => ?_⟩
    rcases List.mem_cons.1 member with rfl | member
    · exact Nat.lt_of_lt_of_le first (bindYielded_grows boundRest).slots
    · exact others i member

theorem bindYielded_keeps {path : ScopeChain} {ps : List BlockParameter}
    {parts : List Typed.Expr} (h : bindYielded path ps parts s = some (ids, s')) :
    s'.methods = s.methods ∧ s'.instances = s.instances := by
  induction ps generalizing parts ids s with
  | nil =>
    obtain ⟨-, rfl⟩ := pure_eq_some.1 h
    exact ⟨rfl, rfl⟩
  | cons p ps ih =>
    simp only [bindYielded] at h
    rw [bind_run (bindVar_run _ _ _)] at h
    obtain ⟨rest, s₂, boundRest, h⟩ := bind_eq_some.1 h
    obtain ⟨-, rfl⟩ := pure_eq_some.1 h
    obtain ⟨methods, instances⟩ := ih boundRest
    exact ⟨methods, instances⟩

theorem tempSlots_keeps {ts : List Ty} (h : tempSlots ts s = some (ids, s')) :
    s'.methods = s.methods ∧ s'.instances = s.instances := by
  induction ts generalizing ids s with
  | nil =>
    obtain ⟨-, rfl⟩ := pure_eq_some.1 h
    exact ⟨rfl, rfl⟩
  | cons t ts ih =>
    simp only [tempSlots] at h
    rw [bind_run (tempSlot_run _)] at h
    obtain ⟨rest, s₂, made, h⟩ := bind_eq_some.1 h
    obtain ⟨-, rfl⟩ := pure_eq_some.1 h
    obtain ⟨methods, instances⟩ := ih made
    exact ⟨methods, instances⟩

theorem tempSlots_length {ts : List Ty} {ids : List SlotId}
    (h : tempSlots ts s = some (ids, s')) : ids.length = ts.length := by
  induction ts generalizing ids s s' with
  | nil =>
    simp only [tempSlots, pure_eq_some] at h
    rw [← h.1]
    rfl
  | cons t ts ih =>
    simp only [tempSlots] at h
    rw [bind_run (tempSlot_run _)] at h
    obtain ⟨rest, s₂, made, h⟩ := bind_eq_some.1 h
    obtain ⟨rfl, -⟩ := pure_eq_some.1 h
    rw [List.length_cons, List.length_cons, ih made]

theorem tempSlots_slots {ts : List Ty} (numbered : s.frame.Numbered)
    (h : tempSlots ts s = some (ids, s')) : s'.frame.Numbered ∧ s'.frame.Has ids := by
  induction ts generalizing ids s with
  | nil =>
    obtain ⟨rfl, rfl⟩ := pure_eq_some.1 h
    exact ⟨numbered, by simp [FrameSlots.Has]⟩
  | cons t ts ih =>
    simp only [tempSlots] at h
    rw [bind_run (tempSlot_run _)] at h
    obtain ⟨rest, s₂, made, h⟩ := bind_eq_some.1 h
    obtain ⟨rfl, rfl⟩ := pure_eq_some.1 h
    obtain ⟨numbered₂, others⟩ := ih (numbered.tempSlot t) made
    refine ⟨numbered₂, fun i member => ?_⟩
    rcases List.mem_cons.1 member with rfl | member
    · exact Nat.lt_of_lt_of_le (FrameSlots.Numbered.tempSlot_lt s.frame t)
        (tempSlots_grows made).slots
    · exact others i member

end Binding

end TypedBlocks.Inference

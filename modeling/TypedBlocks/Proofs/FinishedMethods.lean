import TypedBlocks.Proofs.CompilationSteps
import TypedBlocks.Proofs.Growth

/-!
# Methods that a run finishes

A method is admitted before its body is elaborated, so that calls in the body can name it, and it is
finished when the call that admitted it is. Whatever holds of each method when it is made thus holds
of all methods that a run brings in, once the run is over.
-/
namespace TypedBlocks.Inference

open Typed (InstanceId SlotId Slot)
open Pass

/-- A property of a method at its place among the methods that are known by then. -/
abbrev MethodProperty := Nat → List (Instantiation × InstanceId) → Typed.Method → Prop

/-- The property is not lost when more methods become known. -/
def MethodProperty.Lasting (P : MethodProperty) : Prop :=
  ∀ i known known' m, known <+: known' → P i known m → P i known' m

/-- Every method that has come in between is finished and has one property, and it has another that
relates it to the types it is called with. -/
structure PassState.Finishes (P : MethodProperty) (Q : Instantiation → Typed.Method → Prop)
    (s s' : PassState) : Prop where
  made : ∀ i, s.methods.size ≤ i → i < s'.methods.size →
    ∃ m, s'.methods[i]? = some (some m) ∧ P i s'.instances m
  present : ∀ key id, (key, id) ∈ s'.instances → (key, id) ∈ s.instances ∨
    ∃ m, s'.methods[id.val]? = some (some m) ∧ Q key m

namespace PassState.Finishes

variable {P : MethodProperty} {Q : Instantiation → Typed.Method → Prop} {s s₁ s' : PassState}

theorem of_same (methods : s'.methods = s.methods) (instances : s'.instances = s.instances) :
    s.Finishes P Q s' where
  made i low high := by
    rw [methods] at high
    omega
  present key id member := .inl (instances ▸ member)

theorem trans (lasting : P.Lasting) (first : s.Finishes P Q s₁) (second : s₁.Finishes P Q s')
    (grows : s₁.Grows s') : s.Finishes P Q s' where
  made i low high := by
    by_cases inner : i < s₁.methods.size
    · obtain ⟨m, found, here⟩ := first.made i low inner
      exact ⟨m, by rw [grows.methods i inner, found], lasting i _ _ m grows.instances here⟩
    · exact second.made i (by omega) high
  present key id member := by
    rcases second.present key id member with earlier | here
    · rcases first.present key id earlier with earlier | ⟨m, found, types⟩
      · exact .inl earlier
      · refine .inr ⟨m, ?_, types⟩
        have inner : id.val < s₁.methods.size := (Array.getElem?_eq_some_iff.1 found).1
        rw [grows.methods id.val inner, found]
    · exact .inr here

/-- A method joins those that its body has brought in. -/
theorem leftMethod {key : Instantiation} {m : MethodEntry} {parameters : List SlotId}
    {body : Elaborated} {s₂ : PassState} (grows : (enteredMethod key s).Grows s₂)
    (inner : (enteredMethod key s).Finishes P Q s₂)
    (made : P s.methods.size s₂.instances (madeMethod key m parameters body s s₂))
    (present : Q key (madeMethod key m parameters body s s₂)) :
    s.Finishes P Q (leftMethod key m parameters body s s₂) := by
  have size : (enteredMethod key s).methods.size = s.methods.size + 1 := by
    simp [enteredMethod, admitted]
  have pending : s₂.methods[s.methods.size]? = some none := by
    rw [grows.methods _ (by omega)]
    simp [enteredMethod, admitted]
  have low : s.methods.size < s₂.methods.size := (Array.getElem?_eq_some_iff.1 pending).1
  have here : (Inference.leftMethod key m parameters body s s₂).methods[s.methods.size]? =
      some (some (madeMethod key m parameters body s s₂)) := by
    simp [Inference.leftMethod, low]
  have other {i : Nat} (different : i ≠ s.methods.size) :
      (Inference.leftMethod key m parameters body s s₂).methods[i]? = s₂.methods[i]? := by
    simp [Inference.leftMethod, Array.getElem?_setIfInBounds_ne (Ne.symm different)]
  constructor
  · intro i above below
    have bounded : i < s₂.methods.size := by simpa [Inference.leftMethod] using below
    by_cases last : i = s.methods.size
    · subst last
      exact ⟨_, here, made⟩
    · rw [other last]
      exact inner.made i (by omega) bounded
  · intro k j member
    rcases inner.present k j member with earlier | ⟨n, at_index, types⟩
    · simp only [enteredMethod, admitted, List.mem_append, List.mem_singleton,
        Prod.mk.injEq] at earlier
      rcases earlier with earlier | ⟨rfl, rfl⟩
      · exact .inl earlier
      · exact .inr ⟨_, here, present⟩
    · have different : j.val ≠ s.methods.size := by
        intro same
        rw [same, pending] at at_index
        cases at_index
      exact .inr ⟨n, by rw [other different]; exact at_index, types⟩

end PassState.Finishes

/-- A run lets the state grow, and the methods that it finishes have the property. -/
structure PassState.Advances (P : Typed.Method → Prop) (s s' : PassState) : Prop where
  grows : s.Grows s'
  finishes : s.Finishes (fun _ _ => P) (fun _ _ => True) s'

namespace PassState.Advances

variable {P : Typed.Method → Prop} {s s₁ s' : PassState}

theorem of_step (grows : s.Grows s') (methods : s'.methods = s.methods)
    (instances : s'.instances = s.instances) : s.Advances P s' :=
  ⟨grows, .of_same methods instances⟩

theorem refl (s : PassState) : s.Advances P s := of_step (.refl s) rfl rfl

theorem assigned (s : PassState) (keys : List ScopeVar) :
    s.Advances P { s with assigned := keys } := of_step (grows_assigned s keys) rfl rfl

theorem trans (first : s.Advances P s₁) (second : s₁.Advances P s') : s.Advances P s' where
  grows := first.grows.trans second.grows
  finishes := first.finishes.trans (fun _ _ _ _ _ => id) second.finishes second.grows

theorem leftMethod {key : Instantiation} {m : MethodEntry} {parameters : List SlotId}
    {body : Elaborated} {s₂ : PassState} (inner : (enteredMethod key s).Advances P s₂)
    (grows : s.Grows (leftMethod key m parameters body s s₂))
    (made : P (madeMethod key m parameters body s s₂)) :
    s.Advances P (leftMethod key m parameters body s s₂) :=
  ⟨grows, .leftMethod inner.grows inner.finishes made trivial⟩

end PassState.Advances

/-- The methods of a program are those that the pass has finished. -/
theorem madeProgram_methods {cx : Setting} {P : MethodProperty}
    {Q : Instantiation → Typed.Method → Prop} {ts : Tables} {body : Elaborated} {s : PassState}
    (finishes : (enteredMain ts).Finishes P Q s) :
    ∀ m ∈ (madeProgram cx body s).methods, ∃ i, P i s.instances m := by
  intro m member
  rw [madeProgram, Array.mem_filterMap] at member
  obtain ⟨o, member, rfl⟩ := member
  obtain ⟨i, bound, found⟩ := Array.mem_iff_getElem.1 member
  obtain ⟨n, at_index, holds⟩ := finishes.made i (Nat.zero_le i) bound
  rw [Array.getElem?_eq_getElem bound, found] at at_index
  cases at_index
  exact ⟨i, holds⟩

/-- The number that a call gets is listed for the types of the call, or for types that are the
same. -/
theorem elaborateMethod_listed {cx : Setting} {elaborate : Elaborate} {s s' : PassState}
    (growing : elaborate.Growing) {depth : Nat} {key : Instantiation} {id : InstanceId}
    (h : elaborateMethod cx elaborate depth key s = some (id, s')) :
    ∃ k, (k, id) ∈ s'.instances ∧ (k = key ∨ (key == k) = true) := by
  rcases elaborateMethod_steps h with ⟨found, rfl⟩ | ⟨-, rfl, ⟨-, rfl⟩ | ⟨m, parameters, s₁, body,
    s₂, -, bound, run, rfl⟩⟩
  · obtain ⟨k, member, same⟩ := lookup_mem found
    exact ⟨k, member, .inr same⟩
  · exact ⟨key, by simp [admitted], .inl rfl⟩
  · refine ⟨key, ?_, .inl rfl⟩
    have inner := (bindVars_grows bound).trans (elaborateBody_grows growing run)
    exact inner.instances.subset (by simp [enteredMethod, admitted])

end TypedBlocks.Inference

import TypedBlocks.Evaluation.Primitive

/-!
# Results of primitive operations
-/
namespace TypedBlocks.Primitive

theorem arithmetic?_fault {p : Primitive} {v w : Value} {f : Fault}
    (h : p.arithmetic? v w = some (.error f)) : f = .divisionByZero := by
  unfold arithmetic? at h
  split at h
  · split at h
    · cases h
    · cases h
      rfl
  · split at h <;> cases h

/-- An operation fails only for its operands, or for a quotient that does not exist. -/
theorem apply_fault {p : Primitive} {receiver : Value} {arguments : List Value} {f : Fault}
    (h : p.apply receiver arguments = .error f) :
    f = .divisionByZero ∨ f = p.operandFault receiver arguments := by
  have computed {v : Value} (h : (p.arithmetic? receiver v).getD
      (.error (p.operandFault receiver arguments)) = .error f) :
      f = .divisionByZero ∨ f = p.operandFault receiver arguments := by
    cases result : p.arithmetic? receiver v with
    | none =>
      rw [result] at h
      cases h
      exact .inr rfl
    | some r =>
      rw [result] at h
      cases h
      exact .inl (arithmetic?_fault result)
  unfold apply at h
  dsimp only at h
  split at h
  all_goals first
    | exact computed h
    | (split at h <;> cases h <;> exact .inr rfl)
    | (cases h <;> exact .inr rfl)

end TypedBlocks.Primitive

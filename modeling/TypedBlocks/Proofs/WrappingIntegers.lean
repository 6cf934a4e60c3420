import TypedBlocks.Evaluation.Primitive

/-!
# Integers of 64 bits

An operation on two integers has the result that it has on whole numbers, reduced modulo 2^64. Only
where there is no quotient, or none of 64 bits, division and remainder fail; everywhere else they fit
together.
-/
namespace TypedBlocks.Primitive

/-- What an operation makes of two whole numbers; division and remainder cut toward zero. -/
def onWhole (p : Primitive) (a b : Int) : Int :=
  match p with
  | add => a + b
  | sub => a - b
  | mul => a * b
  | div => a.tdiv b
  | _ => a.tmod b

/-- The outcome is the integer of 64 bits that is congruent to the whole number modulo 2^64. -/
def Wraps (outcome : Except Fault Value) (n : Int) : Prop :=
  ∃ i : Int64, outcome = .ok (.int i) ∧ i.toInt = n.bmod Int64.size

/-- The quotient does not exist, or is the one that does not fit. -/
def NoQuotient (a b : Int64) : Prop := b = 0 ∨ (a = Int64.minValue ∧ b = -1)

instance (a b : Int64) : Decidable (NoQuotient a b) :=
  inferInstanceAs (Decidable (b = 0 ∨ (a = Int64.minValue ∧ b = -1)))

variable {p : Primitive} {a b : Int64}

/-- A remainder is smaller than what was divided, so it fits. -/
theorem toInt_tmod_bmod (a b : Int64) :
    (a.toInt.tmod b.toInt).bmod Int64.size = a.toInt.tmod b.toInt := by
  rw [← Int64.toInt_mod]
  exact Int64.toInt_bmod _

theorem apply_ring (operation : p ∈ [add, sub, mul]) :
    Wraps (p.apply (.int a) [.int b]) (p.onWhole a.toInt b.toInt) := by
  simp only [List.mem_cons, List.not_mem_nil, or_false] at operation
  rcases operation with rfl | rfl | rfl
  · exact ⟨a + b, rfl, Int64.toInt_add a b⟩
  · exact ⟨a - b, rfl, Int64.toInt_sub a b⟩
  · exact ⟨a * b, rfl, Int64.toInt_mul a b⟩

/-- The test before a division says whether there is a quotient. -/
theorem divisible_eq :
    (b != 0 && !(a == Int64.minValue && b == -1)) = decide (¬ NoQuotient a b) := by
  rw [Bool.eq_iff_iff]
  simp [NoQuotient]

theorem onInts?_div (a b : Int64) :
    div.onInts? a b = if NoQuotient a b then none else some (a / b) := by
  unfold onInts?
  dsimp only
  rw [divisible_eq]
  by_cases missing : NoQuotient a b <;> simp [missing]

theorem onInts?_mod (a b : Int64) :
    mod.onInts? a b = if NoQuotient a b then none else some (a % b) := by
  unfold onInts?
  dsimp only
  rw [divisible_eq]
  by_cases missing : NoQuotient a b <;> simp [missing]

theorem apply_missing (operation : p ∈ [div, mod]) (missing : NoQuotient a b) :
    p.apply (.int a) [.int b] = .error .divisionByZero := by
  simp only [List.mem_cons, List.not_mem_nil, or_false] at operation
  rcases operation with rfl | rfl
  · simp only [apply, List.head?_cons, arithmetic?, onInts?_div, if_pos missing, Option.getD_some]
  · simp only [apply, List.head?_cons, arithmetic?, onInts?_mod, if_pos missing, Option.getD_some]

theorem div_apply (divided : ¬ NoQuotient a b) : div.apply (.int a) [.int b] = .ok (.int (a / b)) := by
  simp only [apply, List.head?_cons, arithmetic?, onInts?_div, if_neg divided, Option.getD_some]

theorem mod_apply (divided : ¬ NoQuotient a b) : mod.apply (.int a) [.int b] = .ok (.int (a % b)) := by
  simp only [apply, List.head?_cons, arithmetic?, onInts?_mod, if_neg divided, Option.getD_some]

theorem apply_divided (operation : p ∈ [div, mod]) (divided : ¬ NoQuotient a b) :
    Wraps (p.apply (.int a) [.int b]) (p.onWhole a.toInt b.toInt) := by
  simp only [List.mem_cons, List.not_mem_nil, or_false] at operation
  rcases operation with rfl | rfl
  · exact ⟨a / b, div_apply divided, Int64.toInt_div a b⟩
  · refine ⟨a % b, mod_apply divided, ?_⟩
    rw [Int64.toInt_mod]
    exact (toInt_tmod_bmod a b).symm

/-- The quotient times the divisor falls short of what was divided by the remainder, also where the
quotient has wrapped around. -/
theorem div_mul_add_mod (a b : Int64) : a / b * b + a % b = a := by
  rw [← Int64.toInt_inj, Int64.toInt_add, Int64.toInt_mul, Int64.toInt_div, Int64.toInt_mod,
    Int.bmod_mul_bmod, Int.bmod_add_bmod, Int.mul_comm, Int.mul_tdiv_add_tmod]
  exact Int64.toInt_bmod a

theorem natAbs_mod_lt (divisor : b ≠ 0) : (a % b).toInt.natAbs < b.toInt.natAbs := by
  have positive : 0 < b.toInt.natAbs := by
    rw [Int.natAbs_pos]
    exact fun zero => divisor (Int64.toInt_inj.1 zero)
  rw [Int64.toInt_mod, Int.natAbs_tmod]
  exact Nat.mod_lt _ positive

/-- For all integers of 64 bits the operations give the result on whole numbers reduced modulo 2^64,
but for division and remainder where there is no quotient of 64 bits: there, and only there, they
fail. Everywhere else the quotient times the divisor, and the remainder added, give back what was
divided, and the remainder is smaller than the divisor. -/
theorem integers_wrap_where_divisible (a b : Int64) :
    (∀ p ∈ [add, sub, mul], Wraps (p.apply (.int a) [.int b]) (p.onWhole a.toInt b.toInt)) ∧
      Wraps (neg.apply (.int a) []) (-a.toInt) ∧
      (∀ p ∈ [div, mod],
        (p.apply (.int a) [.int b] = .error .divisionByZero ↔ NoQuotient a b) ∧
        (¬ NoQuotient a b → Wraps (p.apply (.int a) [.int b]) (p.onWhole a.toInt b.toInt))) ∧
      (¬ NoQuotient a b → ∃ quotient remainder product,
        div.apply (.int a) [.int b] = .ok (.int quotient) ∧
        mod.apply (.int a) [.int b] = .ok (.int remainder) ∧
        mul.apply (.int quotient) [.int b] = .ok (.int product) ∧
        add.apply (.int product) [.int remainder] = .ok (.int a) ∧
        remainder.toInt.natAbs < b.toInt.natAbs) := by
  refine ⟨fun p => apply_ring, ⟨-a, rfl, Int64.toInt_neg a⟩, fun p operation => ⟨⟨fun fails => ?_,
    apply_missing operation⟩, apply_divided operation⟩, fun divided => ?_⟩
  · by_cases missing : NoQuotient a b
    · exact missing
    · obtain ⟨i, result, -⟩ := apply_divided operation missing
      cases fails.symm.trans result
  · refine ⟨a / b, a % b, a / b * b, div_apply divided, mod_apply divided, rfl, ?_, ?_⟩
    · exact congrArg (fun n => Except.ok (Value.int n)) (div_mul_add_mod a b)
    · exact natAbs_mod_lt fun zero => divided (.inl zero)

end TypedBlocks.Primitive

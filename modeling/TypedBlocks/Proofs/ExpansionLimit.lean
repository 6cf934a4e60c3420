import TypedBlocks.Proofs.ClassChains
import TypedBlocks.Proofs.ComparedPasses
import TypedBlocks.Proofs.Convergence
import TypedBlocks.Proofs.MoreFuel

/-!
# The limit on expansions

The limit is meant for the expansions that are nested in one body, that of the top level or of a method.
But a method is elaborated where it is first called, and the expansions around that call are counted in
its body as well: they lower the limit for the method, and for all that is first called from there.
-/
namespace TypedBlocks

/-- The error with another limit, if it is about a limit on expansions. -/
def StaticError.withLimit (limit : Nat) : StaticError → StaticError
  | .inlineDepthExceeded name _ span => .inlineDepthExceeded name limit span
  | e => e

namespace Inference

open Pass

/-- The place with no expansions around it if it is that of a method's own body. -/
def Place.restarted (here : Place) : Place :=
  match here.activation.path with
  | [.instance _] => { here with depth := 0 }
  | _ => here

/-- Elaborate with the expansions counted anew in the body of every method. -/
def elaborateOwn (cx : Setting) : Nat → Elaborate
  | 0, _, _ => Pass.outOfFuel
  | fuel + 1, here, e => elaborateForm cx (elaborateOwn cx fuel) here.restarted e

/-- Elaborate on the condition that no method is first called inside an expansion. -/
def elaborateConfined (cx : Setting) : Nat → Elaborate
  | 0, _, _ => Pass.outOfFuel
  | fuel + 1, here, e =>
    if here.restarted.depth = here.depth then elaborateForm cx (elaborateConfined cx fuel) here e
    else Pass.outOfFuel

/-- The state with another limit in its errors. -/
def PassState.withLimit (limit : Nat) (s : PassState) : PassState :=
  { s with errors := s.errors.map (StaticError.withLimit limit) }

theorem Place.restarted_eq (a : BodyContext) (n : Nat) :
    ∃ n' ≤ n, Place.restarted ⟨a, n⟩ = ⟨a, n'⟩ := by
  simp only [Place.restarted]
  split
  · exact ⟨0, Nat.zero_le n, rfl⟩
  · exact ⟨n, Nat.le_refl n, rfl⟩

/-- Fewer expansions are counted at the same limit. -/
def Recount.fewer (limit : Nat) : Recount limit limit where
  depths n n' := n' ≤ n
  error e := e
  spared e := e.isDepth = true
  next := Nat.succ_le_succ
  other _ := rfl
  within := Nat.lt_of_le_of_lt
  beyond _ _ _ _ := .inl rfl

theorem Recount.fewer_state (limit : Nat) (s : PassState) : (Recount.fewer limit).state s = s := by
  simp [Recount.state, Recount.fewer]

/-- Expansions around the place lower the limit instead of being counted. -/
def Recount.lowered (limit around : Nat) : Recount limit (limit - around) where
  depths n n' := n = around + n'
  error := StaticError.withLimit (limit - around)
  spared _ := False
  next same := by rw [same, Nat.add_assoc]
  other {e} plain := by
    cases e with
    | inlineDepthExceeded => cases plain
    | _ => rfl
  within same less := by omega
  beyond same deep _ _ := .inr ⟨by omega, rfl⟩

section Elaborations

variable (cx : Setting) (fuel : Nat)

theorem elaborateExpr_own :
    (elaborateExpr cx fuel).Followed (.fewer cx.limits.maxInlineDepth) (elaborateOwn cx fuel) := by
  induction fuel with
  | zero => exact fun _ _ _ _ _ _ _ _ => nofun
  | succ fuel ih =>
    intro a n n' e depths
    obtain ⟨m, less, same⟩ := Place.restarted_eq a n'
    rw [elaborateOwn, same]
    exact elaborateForm_followed ih (Nat.le_trans less depths) e

theorem elaborateExpr_lowered (around : Nat) :
    (elaborateExpr cx fuel).Followed (.lowered cx.limits.maxInlineDepth around)
      (elaborateExpr (cx.withDepth (cx.limits.maxInlineDepth - around)) fuel) := by
  induction fuel with
  | zero => exact fun _ _ _ _ _ _ _ _ => nofun
  | succ fuel ih => exact fun a n n' e depths => elaborateForm_followed ih depths e

theorem elaborateConfined_below :
    Elaborate.Below (elaborateConfined cx fuel) (elaborateExpr cx fuel) := by
  induction fuel with
  | zero => exact fun _ _ _ _ => nofun
  | succ fuel ih =>
    intro here e
    rw [elaborateConfined]
    split
    · exact elaborateForm_below ih here e
    · exact fun _ _ => nofun

theorem elaborateConfined_own :
    Elaborate.Below (elaborateConfined cx fuel) (elaborateOwn cx fuel) := by
  induction fuel with
  | zero => exact fun _ _ _ _ => nofun
  | succ fuel ih =>
    rintro ⟨a, n⟩ e
    obtain ⟨m, -, same⟩ := Place.restarted_eq a n
    rw [elaborateConfined, elaborateOwn, same]
    split
    · rename_i plain
      have plain : m = n := plain
      exact plain ▸ elaborateForm_below ih ⟨a, m⟩ e
    · exact fun _ _ => nofun

end Elaborations

section Passes

variable {cx : Setting} {fuel : Nat} {statements : List Expr} {ts : Tables} {body : Elaborated}
  {s s' : PassState}

/-- A method that is first called inside expansions is elaborated as outside of them, but with a limit
that is lower by their number. -/
theorem elaborateMethod_lowered {around : Nat} {key : Instantiation} {id : Typed.InstanceId}
    (h : elaborateMethod cx (elaborateExpr cx fuel) around key s = some (id, s')) :
    let limit := cx.limits.maxInlineDepth - around
    elaborateMethod (cx.withDepth limit) (elaborateExpr (cx.withDepth limit) fuel) 0 key
      (s.withLimit limit) = some (id, s'.withLimit limit) := by
  have none : (Recount.lowered cx.limits.maxInlineDepth around).depths around 0 := rfl
  exact (elaborateMethod_followed (elaborateExpr_lowered cx fuel around) none key s id s' h).2
    fun _ _ spared => spared

/-- A pass without complaint about the limit counts no more in any body than is nested in it. -/
theorem pass_own (run : elaborateBody (elaborateExpr cx fuel) mainPlace statements (enteredMain ts) =
    some (body, s)) (within : ∀ e ∈ s.errors, e.isDepth = false) :
    elaborateBody (elaborateOwn cx fuel) mainPlace statements (enteredMain ts) = some (body, s) := by
  have same := (elaborateBody_followed (elaborateExpr_own cx fuel) (Nat.le_refl 0) statements
    (enteredMain ts) body s run).2 fun e member spared =>
      Bool.false_ne_true ((within e member).symm.trans spared)
  rwa [Recount.fewer_state, Recount.fewer_state] at same

/-- The limit on expansions counts those that are nested in one body and those around the first call of
the method. A method that is first called inside expansions is elaborated as outside of them with a limit
lowered by their number. In a program that is inferred no body has more expansions nested in it than the
limit allows: counted anew in every method, the last pass is the same. If there is a complaint about the
limit, then some body has more, or else some method is first called inside an expansion. -/
theorem limit_counts_from_first_call (cx : Setting) (fuel : Nat) (bodies : List (List Expr)) :
    (∀ around key s id s',
      elaborateMethod cx (elaborateExpr cx fuel) around key s = some (id, s') →
        let limit := cx.limits.maxInlineDepth - around
        elaborateMethod (cx.withDepth limit) (elaborateExpr (cx.withDepth limit) fuel) 0 key
          (s.withLimit limit) = some (id, s'.withLimit limit)) ∧
    (∀ p, infer cx fuel bodies = .ok p → ∃ ts body s,
      lastTables? cx fuel bodies.flatten cx.limits.maxPasses Tables.empty = some ts ∧
        elaborateBody (elaborateOwn cx fuel) mainPlace bodies.flatten (enteredMain ts) =
          some (body, s) ∧ s.errors = [] ∧ p = madeProgram cx body s) ∧
    ∀ es, infer cx fuel bodies = .error (.errors es) → (∃ e ∈ es, e.isDepth = true) →
      ∃ ts, lastTables? cx fuel bodies.flatten cx.limits.maxPasses Tables.empty = some ts ∧
        ((∃ body s, elaborateBody (elaborateOwn cx fuel) mainPlace bodies.flatten (enteredMain ts) =
            some (body, s) ∧ ∃ e ∈ s.errors, e.isDepth = true) ∨
          elaborateBody (elaborateConfined cx fuel) mainPlace bodies.flatten (enteredMain ts) =
            none) := by
  refine ⟨fun around key s id s' => elaborateMethod_lowered, fun p inferred => ?_,
    fun es failed reported => ?_⟩
  · obtain ⟨ts, s, -, last, run, -, sound⟩ := iterate_steps (P := fun _ => True) trivial
      (fun _ _ _ _ _ => ⟨trivial, trivial⟩) inferred
    obtain ⟨body, run, made⟩ := elaborateProgram_steps run
    exact ⟨ts, body, s, last, pass_own run (by simp [sound]), sound, made⟩
  · obtain ⟨e, member, depth⟩ := reported
    rcases iterate_errors failed with rfl | ⟨ts, p, s, last, run, -, rfl⟩
    · cases List.mem_singleton.1 member
      cases depth
    · refine ⟨ts, last, ?_⟩
      obtain ⟨body, run, -⟩ := elaborateProgram_steps run
      cases confined : elaborateBody (elaborateConfined cx fuel) mainPlace bodies.flatten
          (enteredMain ts) with
      | none => exact .inr rfl
      | some result =>
        have same := elaborateBody_below (elaborateConfined_below cx fuel) _ _ _ confined
        cases run.symm.trans same
        exact .inl ⟨body, s, elaborateBody_below (elaborateConfined_own cx fuel) _ _ _ confined, e,
          distinctErrors_subset _ member, depth⟩

/-- A method that expands a call, first called inside another expansion. -/
def nestedText : String :=
  "def each\n  yield\nend\ndef foo\n  each { 2 }\nend\neach { foo }\n"

/-- How the statements are elaborated if one expansion is allowed. -/
def nestedSetting (d : Definitions) (exits : ExitTable) (statements : List Expr) : Setting :=
  ⟨d, exits, bindBlocks [statements], ⟨32, 1, 64⟩⟩

/-- No body has two expansions nested in it, yet one is not enough. -/
theorem nestedText_limit : ∃ m next d exits,
    Module.read ⟨0⟩ nestedText = .ok (m, next) ∧ Definitions.ofBodies [m.body] = .ok d ∧
      resolveExits [m.body] = .ok exits ∧
        let cx := nestedSetting d exits m.body
        (infer (cx.withDepth 2) ampleFuel [m.body]).isOk = true ∧
          (∃ es, infer cx ampleFuel [m.body] = .error (.errors es) ∧ ∃ e ∈ es, e.isDepth = true) ∧
          ∃ ts body s, elaborateBody (elaborateOwn cx ampleFuel) mainPlace [m.body].flatten
              (enteredMain ts) = some (body, s) ∧ s.errors = [] ∧
            elaborateBody (elaborateConfined cx ampleFuel) mainPlace [m.body].flatten
              (enteredMain ts) = none := by
  obtain ⟨m, next, d, read, collected, holds⟩ := Definitions.exists_module nestedText (fun m d =>
      match resolveExits [m.body] with
      | .ok exits =>
        let cx := nestedSetting d exits m.body
        (infer (cx.withDepth 2) ampleFuel [m.body]).isOk &&
          (match infer cx ampleFuel [m.body] with
            | .error (.errors es) => es.any StaticError.isDepth
            | _ => false) &&
          (lastTables? cx ampleFuel m.body cx.limits.maxPasses Tables.empty).all fun ts =>
            (elaborateBody (elaborateOwn cx ampleFuel) mainPlace m.body (enteredMain ts)).any
              fun r => r.2.errors.isEmpty
      | .error _ => false)
    (by decide +kernel)
  cases resolved : resolveExits [m.body] with
  | error es => simp [resolved] at holds
  | ok exits =>
    simp only [resolved, Bool.and_eq_true] at holds
    obtain ⟨⟨enough, reported⟩, own⟩ := holds
    refine ⟨m, next, d, exits, read, collected, resolved, enough, ?_⟩
    cases failed : infer (nestedSetting d exits m.body) ampleFuel [m.body] with
    | ok p => simp [failed] at reported
    | error f =>
      cases f with
      | outOfFuel => simp [failed] at reported
      | errors es =>
        simp only [failed, List.any_eq_true] at reported
        refine ⟨⟨es, rfl, reported⟩, ?_⟩
        obtain ⟨ts, last, more⟩ := (limit_counts_from_first_call _ _ _).2.2 es failed reported
        rw [List.flatten_singleton] at last more ⊢
        rw [last, Option.all_some, Option.any_eq_true] at own
        obtain ⟨⟨body, s⟩, run, sound⟩ := own
        have sound : s.errors = [] := by simpa using sound
        refine ⟨ts, body, s, run, sound, more.resolve_left ?_⟩
        rintro ⟨body', s', run', e, member, -⟩
        cases run.symm.trans run'
        rw [sound] at member
        cases member

end Passes

end Inference

end TypedBlocks

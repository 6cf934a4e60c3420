import TypedBlocks.Proofs.ElaboratedTypes
import TypedBlocks.Proofs.TypingRules

/-!
# The tables of the last pass

The pass that makes a program leaves its tables as they are. Since tables only grow, they are the
same all through that pass, and every type that it enters anywhere is covered by the entry already.
-/
namespace TypedBlocks

/-- Everything is in the vocabulary of everything. -/
theorem Vocabulary.all_covers (cx : Inference.Setting) : Vocabulary.all.Covers cx where
  parts _ _ _ _ := trivial
  read _ _ _ _ := trivial
  assigned _ _ _ _ _ _ := trivial
  calls _ _ _ _ _ _ _ _ := ⟨trivial, fun _ _ => ⟨trivial, fun _ _ => trivial⟩⟩
  classes _ _ := trivial
  results _ _ _ _ _ result := ForeignEntry.resultTy?_known (fun _ _ => trivial) result
  methods _ _ _ := ⟨fun _ _ => trivial, fun _ _ => trivial⟩

namespace Inference

open Typed (InstanceId SlotId Slot Signatures)
open Pass

section Lookups

variable {α β : Type} [BEq α] {key : α} {new : β} {change : β → β} {es : List (α × β)}

/-- After an update the key is bound to what the update has put there. -/
theorem lookup_updateAt (new : β) (change : β → β) (self : (key == key) = true)
    (symm : ∀ e ∈ es, (e.1 == key) = (key == e.1)) :
    (updateAt key new change es).lookup key =
      some (match es.lookup key with
        | some b => change b
        | none => new) := by
  induction es with
  | nil => rw [updateAt, List.lookup_cons, self]; rfl
  | cons e es ih =>
    obtain ⟨k, b⟩ := e
    rw [List.forall_mem_cons] at symm
    rw [updateAt]
    split
    · rename_i here
      rw [List.lookup_cons, List.lookup_cons, ← symm.1, here]
    · rename_i other
      rw [List.lookup_cons, List.lookup_cons, ← symm.1, Bool.eq_false_iff.2 other]
      exact ih symm.2

end Lookups

section Covered

variable {cx : Setting} {V : Vocabulary} {F : Tables} {t : Ty}

theorem Tables.Known.reduced (known : F.Known cx V) : F.Reduced where
  vars e member := (known.vars.each e member).2.reduced
  methods e member t inside := ((known.methods.each e member).2 t inside).reduced
  layouts e member :=
    have vars : Ty.VarsKnown V e.2 := (known.layouts.each e member).2
    ⟨vars.nodup, fun v inside => (vars.each v inside).2.reduced⟩
  globals e member := (known.globals.each e member).2.reduced
  constants e member := (known.constants.each e member).2.reduced

/-- An entry covers the type that it is extended by. -/
theorem extendAt_covers {α : Type} [BEq α] {es : List (α × Ty)} (key : α)
    (self : (key == key) = true) (symm : ∀ e ∈ es, (e.1 == key) = (key == e.1))
    (types : ∀ e ∈ es, e.2.Known V) (new : t.Known V) :
    ∃ u, (extendAt key t es).lookup key = some u ∧ t ≤ u := by
  rw [extendAt_eq, lookup_updateAt _ _ self symm]
  refine ⟨_, rfl, ?_⟩
  cases found : es.lookup key with
  | none => exact new.proper.le_refl
  | some u => exact Ty.le_join_right (lookup_forall types found).proper new.proper

theorem ScopeVar.Known.beq_comm {k l : ScopeVar} (left : k.Known cx V) (right : l.Known cx V) :
    (k == l) = (l == k) := by
  rw [Bool.eq_iff_iff, ScopeVar.beq_iff left.proper right.proper,
    ScopeVar.beq_iff right.proper left.proper, eq_comm]

theorem ScopeVar.Known.beq_self {k : ScopeVar} (known : k.Known cx V) : (k == k) = true :=
  (ScopeVar.beq_iff known.proper known.proper).2 rfl

theorem Instantiation.Known.beq_comm {k l : Instantiation} (left : k.Known cx V)
    (right : l.Known cx V) : (k == l) = (l == k) := by
  rw [Bool.eq_iff_iff, Instantiation.beq_iff left.proper right.proper,
    Instantiation.beq_iff right.proper left.proper, eq_comm]

theorem Instantiation.Known.beq_self {k : Instantiation} (known : k.Known cx V) :
    (k == k) = true := (Instantiation.beq_iff known.proper known.proper).2 rfl

namespace Tables.Known

variable (known : F.Known cx V)

include known

theorem covers_var {key : ScopeVar} (scope : key.Known cx V) (new : t.Known V)
    (fixed : F.extendVar key t = F) : ∃ u, F.var? key = some u ∧ t ≤ u := by
  have covered := extendAt_covers key scope.beq_self
    (fun e member => (known.vars.each e member).1.1.beq_comm scope)
    (fun e member => (known.vars.each e member).2) new
  have same : extendAt key t F.vars = F.vars := congrArg Tables.vars fixed
  rwa [same] at covered

theorem covers_global {name : String} (new : t.Known V) (fixed : F.extendGlobal name t = F) :
    ∃ u, F.globals.lookup name = some u ∧ t ≤ u := by
  have covered := extendAt_covers name BEq.rfl (fun _ _ => BEq.comm)
    (fun e member => (known.globals.each e member).2) new
  have same : extendAt name t F.globals = F.globals := congrArg Tables.globals fixed
  rwa [same] at covered

theorem covers_constant {name : String} (new : t.Known V)
    (fixed : F.extendConstant name t = F) : ∃ u, F.constants.lookup name = some u ∧ t ≤ u := by
  have covered := extendAt_covers name BEq.rfl (fun _ _ => BEq.comm)
    (fun e member => (known.constants.each e member).2) new
  have same : extendAt name t F.constants = F.constants := congrArg Tables.constants fixed
  rwa [same] at covered

theorem covers_result {key : Instantiation} (callee : key.Known cx V) {a : Option Ty}
    (new : ∀ t ∈ a, t.Known V) (fixed : F.extendResult key a = F) :
    Ty.OptionLe a (F.result? key) := by
  have same : extendResultIn key a F.methods = F.methods := congrArg Tables.methods fixed
  have found := lookup_updateAt a (Ty.mergeOption · a) callee.beq_self
    fun e member => (known.methods.each e member).1.beq_comm callee
  rw [← extendResultIn_eq, same] at found
  rw [Tables.result?, found]
  have types : ∀ t ∈ a, t.Proper := fun t inside => (new t inside).proper
  cases before : F.methods.lookup key with
  | none => exact Ty.OptionLe.refl types
  | some b =>
    exact Ty.le_mergeOption_right (fun t inside => (known.methods.lookup before t inside).proper)
      types

omit known in
/-- An object covers the variable that it is extended by. -/
theorem lookup_extendVarsOf {name : String} {vars : List (String × Ty)}
    (types : ∀ v ∈ vars, v.2.Proper) (new : t.Proper) :
    ∃ u, (extendVarsOf name t vars).lookup name = some u ∧ t ≤ u := by
  have bound (u : Ty) (covers : t ≤ u) :
      ∃ w, (Ty.bindVar name u vars).lookup name = some w ∧ t ≤ w := by
    rw [bindVar_eq, lookup_updateAt _ _ BEq.rfl fun _ _ => BEq.comm]
    refine ⟨u, ?_, covers⟩
    cases vars.lookup name <;> rfl
  rw [extendVarsOf]
  cases found : vars.lookup name with
  | none => exact bound t new.le_refl
  | some u =>
    have proper := lookup_forall types found
    dsimp only
    split
    · rename_i same
      have joined := Ty.join_proper proper new
      exact ⟨u, found, new.le_trans joined proper (Ty.le_join_right proper new)
        (joined.le_of_same proper (proper.symm joined same))⟩
    · exact bound _ (Ty.le_join_right proper new)

/-- The layout of a class covers the variable that it is extended by. -/
theorem covers_layout {c name : String} (new : t.Known V)
    (fixed : F.extendLayout c name t = F) :
    ∃ u, ((F.layouts.lookup c).getD []).lookup name = some u ∧ bare t ≤ u := by
  have same : extendLayoutIn c name (bare t) F.layouts = F.layouts := congrArg Tables.layouts fixed
  have found := lookup_updateAt (extendVarsOf name (bare t) []) (extendVarsOf name (bare t))
    (BEq.rfl (a := c)) fun e (_ : e ∈ F.layouts) => BEq.comm
  rw [← extendLayoutIn_eq, same] at found
  rw [found, Option.getD_some]
  cases before : F.layouts.lookup c with
  | none => exact lookup_extendVarsOf nofun new.bare.proper
  | some vars =>
    have vars' : Ty.VarsKnown V vars := known.layouts.lookup before
    exact lookup_extendVarsOf (fun v inside => (vars'.each v inside).2.proper) new.bare.proper

end Tables.Known

end Covered

section Signatures

/-- The signatures that the tables give, with the methods as they are numbered. -/
def Tables.signatures (F : Tables) (method? : InstanceId → Option Typed.Method) : Signatures :=
  ⟨method?, fun c => (F.layouts.lookup c).getD [], F.globals, F.constants⟩

theorem signatures_instanceTy {F : Tables} {method? : InstanceId → Option Typed.Method}
    (c name : String) : (F.signatures method?).instanceTy c name = instanceTy F c name := by
  rw [Signatures.instanceTy, instanceTy, Tables.instanceVar?]
  simp only [Tables.signatures]
  cases F.layouts.lookup c <;> rfl

/-- The layouts of a program are those of the tables. -/
theorem sortedLayouts_find {ts : Tables} (once : (ts.layouts.map (·.1)).Nodup) (c : String) :
    ((sortedLayouts ts).find? (·.className == c)).map (·.vars) = ts.layouts.lookup c := by
  have listed (l : Typed.Layout) : l ∈ sortedLayouts ts ↔ (l.className, l.vars) ∈ ts.layouts := by
    rw [sortedLayouts, (List.mergeSort_perm _ _).mem_iff, List.mem_map]
    constructor
    · rintro ⟨e, member, rfl⟩
      exact member
    · exact fun member => ⟨_, member, rfl⟩
  cases found : (sortedLayouts ts).find? (·.className == c) with
  | some l =>
    have here : l.className = c := by simpa using List.find?_some found
    have member := (listed l).1 (List.mem_of_find?_eq_some found)
    rw [here] at member
    exact ((lookup_eq_some_iff once).2 member).symm
  | none =>
    cases entry : ts.layouts.lookup c with
    | none => rfl
    | some vars =>
      have member := (listed ⟨c, vars⟩).2 ((lookup_eq_some_iff once).1 entry)
      simpa using List.find?_eq_none.1 found _ member

theorem madeProgram_signatures {cx : Setting} {body : Elaborated} {s : PassState}
    (once : (s.tables.layouts.map (·.1)).Nodup) :
    (madeProgram cx body s).signatures s.tables.globals s.tables.constants =
      s.tables.signatures (madeProgram cx body s).method? := by
  simp only [Typed.Program.signatures, Tables.signatures, Signatures.mk.injEq, true_and, and_true]
  funext c
  rw [← sortedLayouts_find once c]
  rfl

end Signatures

end Inference

namespace Compilation

open Inference

/-- A compiled program is made by a pass that ends with the very tables it started from. -/
theorem ofBodies_last {limits : Limits} {bodies : List (List Expr)} {c : Compilation}
    (compiled : ofBodies limits bodies = .ok c) :
    ∃ definitions, Definitions.ofBodies bodies = .ok definitions ∧
      resolveExits bodies = .ok c.exits ∧ c.captures = bindBlocks bodies ∧
      ∃ body s, elaborateBody (elaborateExpr ⟨definitions, c.exits, c.captures, limits⟩ ampleFuel)
          mainPlace bodies.flatten (enteredMain s.tables) = some (body, s) ∧
        c.program = madeProgram ⟨definitions, c.exits, c.captures, limits⟩ body s ∧
        s.Known ⟨definitions, c.exits, c.captures, limits⟩ .all ∧ s.errors = [] ∧
        lastTables? ⟨definitions, c.exits, c.captures, limits⟩ ampleFuel bodies.flatten
          limits.maxPasses Tables.empty = some s.tables := by
  obtain ⟨definitions, collected, resolved, bound, inferred⟩ := ofBodies_inferred compiled
  have pass {ts q s} (known : Tables.Known ⟨definitions, c.exits, c.captures, limits⟩ .all ts)
      (run : elaborateProgram ⟨definitions, c.exits, c.captures, limits⟩ ampleFuel bodies.flatten
        (PassState.start ts) = some (q, s)) :=
    pass_known (Vocabulary.all_covers _) (Definitions.ofBodies_consistent collected)
      (fun _ _ => trivial) known run
  obtain ⟨ts, s, known, last, run, same, sound⟩ := iterate_steps empty_known
    (fun ts q s known run => ⟨(pass known run).1.tables, (pass known run).1.tables.layoutsOnly⟩)
    inferred
  obtain ⟨after, grows⟩ := pass known run
  obtain ⟨body, runBody, made⟩ := elaborateProgram_steps run
  obtain rfl := grows.eq_of_same known.reduced same
  exact ⟨definitions, collected, resolved, bound, body, s, runBody, made, after, sound, last⟩

end Compilation

end TypedBlocks

import Mathlib.Data.List.Nodup
import Mathlib.Data.List.Pairwise
import TypedBlocks.Proofs.AssociationLists
import TypedBlocks.Proofs.DefinitionTables
import TypedBlocks.Proofs.NodeNumbers
import TypedBlocks.Proofs.Outcomes
import TypedBlocks.Scope.Exit

/-!
# Exits and the constructs around them

Where every expression of a program stands: with the methods, blocks and loop bodies around it. The
target of an exit is read off this list alone. Resolution finds exactly these targets, or reports
exactly the exits that have none, in the order of the text.
-/
namespace TypedBlocks

/-- An expression and the constructs around it, the innermost first. -/
structure Occurrence where
  around : List ExitTarget
  expr : Expr

/-- The methods that a form defines. -/
def Form.methods : Form → List MethodDef
  | .defMethod m => [m]
  | .defClass c => c.methods
  | _ => []

/-- The expressions directly inside a form, those of definitions included, in the order of the text:
operands and conditions before bodies. The condition of a loop stands outside its body. -/
def Form.within (id : NodeId) (around : List ExitTarget) : Form → List Occurrence
  | .call receiver _ _ arguments block =>
    (receiver.toList ++ arguments).map (⟨around, ·⟩) ++
      block.toList.flatMap fun b => b.body.map (⟨.block b.id :: around, ·⟩)
  | .while condition body => ⟨around, condition⟩ :: body.map (⟨.loop id :: around, ·⟩)
  | .defMethod m => m.body.map (⟨.method m.id :: around, ·⟩)
  | .defClass c => c.methods.flatMap fun m => m.body.map (⟨.method m.id :: around, ·⟩)
  | form => form.parts.map (⟨around, ·⟩)

/-- The method around a place. -/
def methodAround (around : List ExitTarget) : Option NodeId :=
  around.findSome? fun
    | .method id => some id
    | _ => none

/-- The innermost block or loop body that stands around a place in the same definition. -/
def leavableAround (around : List ExitTarget) : Option ExitTarget :=
  (around.takeWhile fun t => (methodAround [t]).isNone).head?

namespace Form

variable {id : NodeId} {around : List ExitTarget} {form : Form} {o : Occurrence} {e : Expr}
  {m : MethodDef}

/-- What is directly inside a form is a part of it, under the same method, or stands in a method that
the form defines. -/
theorem within_cases (inside : o ∈ form.within id around) :
    (o.expr ∈ form.parts ∧ methodAround o.around = methodAround around) ∨
      ∃ m ∈ form.methods, o.expr ∈ m.body ∧ o.around = .method m.id :: around := by
  cases form with
  | call receiver name span arguments block =>
    refine .inl ?_
    simp only [within, List.mem_append, List.mem_map, List.mem_flatMap, Option.mem_toList] at inside
    rcases inside with ⟨d, operand, rfl⟩ | ⟨b, given, d, statement, rfl⟩
    · refine ⟨List.mem_append_left _ ?_, rfl⟩
      simpa using operand
    · cases given
      exact ⟨List.mem_append_right _ statement, rfl⟩
  | «while» condition body =>
    refine .inl ?_
    simp only [within, List.mem_cons, List.mem_map] at inside
    rcases inside with rfl | ⟨d, statement, rfl⟩
    · exact ⟨List.mem_cons_self, rfl⟩
    · exact ⟨List.mem_cons_of_mem _ statement, rfl⟩
  | defMethod m =>
    obtain ⟨d, statement, rfl⟩ := List.mem_map.1 inside
    exact .inr ⟨m, List.mem_cons_self, statement, rfl⟩
  | defClass c =>
    obtain ⟨m, member, inside⟩ := List.mem_flatMap.1 inside
    obtain ⟨d, statement, rfl⟩ := List.mem_map.1 inside
    exact .inr ⟨m, member, statement, rfl⟩
  | _ =>
    obtain ⟨d, part, rfl⟩ := List.mem_map.1 inside
    exact .inl ⟨part, rfl⟩

theorem exists_within_of_part (part : e ∈ form.parts) :
    ∃ o ∈ form.within id around, o.expr = e ∧ methodAround o.around = methodAround around := by
  cases form with
  | call receiver name span arguments block =>
    simp only [within, List.mem_append]
    rcases List.mem_append.1 part with operand | statement
    · exact ⟨⟨around, e⟩, .inl (List.mem_map_of_mem operand), rfl, rfl⟩
    · cases block with
      | none => cases statement
      | some b =>
        refine ⟨⟨.block b.id :: around, e⟩, .inr ?_, rfl, rfl⟩
        exact List.mem_flatMap.2 ⟨b, List.mem_cons_self, List.mem_map_of_mem statement⟩
  | «while» condition body =>
    rcases List.mem_cons.1 part with rfl | statement
    · exact ⟨_, List.mem_cons_self, rfl, rfl⟩
    · exact ⟨⟨.loop id :: around, e⟩, List.mem_cons_of_mem _ (List.mem_map_of_mem statement), rfl,
        rfl⟩
  | defMethod _ | defClass _ => cases part
  | _ => exact ⟨⟨around, e⟩, List.mem_map_of_mem part, rfl, rfl⟩

theorem within_of_method (defined : m ∈ form.methods) (statement : e ∈ m.body) :
    ⟨.method m.id :: around, e⟩ ∈ form.within id around := by
  cases form with
  | defMethod m' =>
    cases List.mem_singleton.1 defined
    exact List.mem_map_of_mem statement
  | defClass c => exact List.mem_flatMap.2 ⟨m, defined, List.mem_map_of_mem statement⟩
  | _ => cases defined

theorem sizeOf_part (part : e ∈ form.parts) : sizeOf e < sizeOf form := by
  cases form with
  | call receiver name span arguments block =>
    simp only [parts, List.mem_append, Option.mem_toList] at part
    rcases part with (rfl | argument) | statement
    · simp +arith
    · have := List.sizeOf_lt_of_mem argument
      simp +arith
      omega
    · cases block with
      | none => cases statement
      | some b =>
        have := List.sizeOf_lt_of_mem statement
        cases b
        simp +arith at *
        omega
  | assign target span value =>
    cases List.mem_singleton.1 part
    simp +arith
  | yield arguments =>
    simp only [parts] at part
    have := List.sizeOf_lt_of_mem part
    simp +arith
    omega
  | «return» value | «break» value =>
    cases Option.mem_toList.1 part
    simp +arith
  | conditional kind condition consequent alternative =>
    simp only [parts, List.cons_append, List.mem_cons, List.mem_append] at part
    rcases part with rfl | statement | statement
    · simp +arith
    · have := List.sizeOf_lt_of_mem statement
      simp +arith
      omega
    · cases alternative with
      | none => cases statement
      | some body =>
        have := List.sizeOf_lt_of_mem statement
        simp +arith at *
        omega
  | «while» condition body =>
    rcases List.mem_cons.1 part with rfl | statement
    · simp +arith
    · have := List.sizeOf_lt_of_mem statement
      simp +arith
      omega
  | logical connective left right =>
    simp only [parts, List.mem_cons, List.not_mem_nil, or_false] at part
    rcases part with rfl | rfl <;> simp +arith
  | not operand =>
    cases List.mem_singleton.1 part
    simp +arith
  | _ => cases part

theorem sizeOf_statement (defined : m ∈ form.methods) (statement : e ∈ m.body) :
    sizeOf e < sizeOf form := by
  have inBody := List.sizeOf_lt_of_mem statement
  have method : sizeOf m.body < sizeOf m := by
    cases m
    simp +arith
  cases form with
  | defMethod m' =>
    cases List.mem_singleton.1 defined
    simp +arith
    omega
  | defClass c =>
    simp only [methods] at defined
    have inClass := List.sizeOf_lt_of_mem defined
    cases c
    simp +arith at *
    omega
  | _ => cases defined

theorem sizeOf_within (inside : o ∈ form.within id around) : sizeOf o.expr < sizeOf form := by
  rcases within_cases inside with ⟨part, -⟩ | ⟨m, defined, statement, -⟩
  · exact sizeOf_part part
  · exact sizeOf_statement defined statement

end Form

namespace Expr

/-- The expression and everything inside it, each before what is inside it. -/
def occurrences (around : List ExitTarget) (e : Expr) : List Occurrence :=
  ⟨around, e⟩ :: (e.form.within e.id around).attach.flatMap fun o =>
    o.1.expr.occurrences o.1.around
termination_by sizeOf e
decreasing_by
  have smaller := Form.sizeOf_within o.2
  cases e
  simp +arith at *
  omega

theorem occurrences_eq (around : List ExitTarget) (e : Expr) : e.occurrences around =
    ⟨around, e⟩ :: (e.form.within e.id around).flatMap fun o => o.expr.occurrences o.around := by
  rw [occurrences]
  simp

theorem mem_occurrences {around : List ExitTarget} {e : Expr} {o : Occurrence} :
    o ∈ e.occurrences around ↔
      o = ⟨around, e⟩ ∨ ∃ p ∈ e.form.within e.id around, o ∈ p.expr.occurrences p.around := by
  rw [occurrences_eq, List.mem_cons, List.mem_flatMap]

end Expr

section Numbers

theorem listIds_flatMap (es : List Expr) : listIds es = es.flatMap Expr.ids := by
  induction es with
  | nil => rfl
  | cons e es ih => rw [listIds, ih, List.flatMap_cons]

theorem placed_ids (around : List ExitTarget) (es : List Expr) :
    ((es.map (⟨around, ·⟩ : Expr → Occurrence)).flatMap fun o => o.expr.ids) = listIds es := by
  rw [List.flatMap_map, listIds_flatMap]

variable (i : Nat)

theorem count_methodsIds (ms : List MethodDef) : (methodsIds ms).count i =
    (ms.map fun m => m.id.val).count i + (ms.flatMap fun m => listIds m.body).count i := by
  induction ms with
  | nil => rfl
  | cons m ms ih =>
    rcases m with ⟨id, _, _, _, body⟩
    simp only [methodsIds, MethodDef.ids, List.map_cons, List.flatMap_cons, List.count_append,
      List.count_cons, ih]
    omega

/-- The numbers in a form are those of the methods that it defines, that of its block if it has one,
and those in the expressions directly inside it. -/
theorem Form.count_within_le (id : NodeId) (around : List ExitTarget) (form : Form) :
    (form.methods.map fun m => m.id.val).count i +
      ((form.within id around).flatMap fun o => o.expr.ids).count i ≤ form.ids.count i := by
  cases form with
  | call receiver name span arguments block =>
    cases receiver <;> rcases block with _ | ⟨_, _, _, body⟩ <;>
      simp [methods, within, ids, optionIds, blockIds, List.flatMap_append,
        List.count_cons, ← listIds_flatMap, List.flatMap_map]
  | «while» condition body =>
    simp [methods, within, ids, placed_ids]
  | conditional kind condition consequent alternative =>
    cases alternative <;>
      simp [methods, within, parts, ids, bodyIds, ← listIds_flatMap, List.flatMap_map]
  | defMethod m =>
    rcases m with ⟨id, _, _, _, body⟩
    simp only [methods, within, ids, MethodDef.ids, placed_ids, List.count_cons, List.map_cons,
      List.map_nil, List.count_nil]
    omega
  | defClass c =>
    rcases c with ⟨_, _, _, _, ms⟩
    simp only [methods, within, ids, count_methodsIds, List.flatMap_assoc, placed_ids]
    exact Nat.le_refl _
  | «return» value | «break» value =>
    cases value <;> simp [methods, within, parts, ids, optionIds]
  | _ => simp [methods, within, parts, ids, ← listIds_flatMap, List.flatMap_map]

/-- Everything in an expression has a number of its own among those of the expression. -/
theorem Expr.count_occurrences_le (around : List ExitTarget) (e : Expr) :
    ((e.occurrences around).flatMap fun o =>
      o.expr.id.val :: o.expr.form.methods.map fun m => m.id.val).count i ≤ e.ids.count i := by
  induction around, e using Expr.occurrences.induct with
  | case1 around e ih =>
    rcases e with ⟨id, span, form⟩
    have inside (os : List Occurrence) (members : ∀ o ∈ os, o ∈ form.within id around) :
        ((os.flatMap fun o => o.expr.occurrences o.around).flatMap fun o =>
          o.expr.id.val :: o.expr.form.methods.map fun m => m.id.val).count i ≤
            (os.flatMap fun o => o.expr.ids).count i := by
      induction os with
      | nil => exact Nat.le_refl _
      | cons o os rest =>
        rw [List.forall_mem_cons] at members
        simp only [List.flatMap_cons, List.flatMap_append, List.count_append]
        exact Nat.add_le_add (ih ⟨o, members.1⟩) (rest members.2)
    have own := form.count_within_le i id around
    have within := inside _ fun _ member => member
    rw [occurrences_eq]
    simp only [List.flatMap_cons, List.count_append, List.count_cons, ids]
    omega

end Numbers

namespace Occurrence

variable (o : Occurrence)

def IsYield : Prop := ∃ arguments, o.expr.form = .yield arguments

/-- The expression is a return, a break or a yield. -/
def IsExit : Prop :=
  (∃ value, o.expr.form = .return value) ∨ (∃ value, o.expr.form = .break value) ∨ o.IsYield

/-- The construct that an exit leaves or belongs to, none if there is no such construct around it. -/
def target? : Option ExitTarget :=
  match o.expr.form with
  | .return _ => some ((methodAround o.around).elim .program .method)
  | .break _ => leavableAround o.around
  | .yield _ => (methodAround o.around).map .method
  | _ => none

/-- The error of an exit that has no target. -/
def offence? : Option StaticError :=
  match o.expr.form, o.target? with
  | .break _, none => some (.unresolvedExit "break" o.expr.span)
  | .yield _, none => some (.yieldOutsideMethod o.expr.span)
  | _, _ => none

/-- The verdict on the expression itself. -/
def findings : List ExitFinding :=
  o.expr.form.ownExit ⟨methodAround o.around, leavableAround o.around⟩ o.expr.id o.expr.span

theorem findings_entries :
    o.findings.filterMap ExitFinding.entry? = (o.target?.map (o.expr.id, ·)).toList := by
  rcases o with ⟨around, ⟨id, span, form⟩⟩
  cases form with
  | «break» value =>
    simp only [findings, target?]
    cases leavableAround around <;> rfl
  | «return» value | yield arguments =>
    simp only [findings, target?]
    cases methodAround around <;> rfl
  | _ => rfl

theorem findings_errors :
    o.findings.filterMap ExitFinding.error? = o.offence?.toList := by
  rcases o with ⟨around, ⟨id, span, form⟩⟩
  cases form with
  | «break» value =>
    simp only [findings, offence?, target?]
    cases leavableAround around <;> rfl
  | yield arguments =>
    simp only [findings, offence?, target?]
    cases methodAround around <;> rfl
  | _ => rfl

end Occurrence

theorem listExits_flatMap (n : Nesting) (es : List Expr) :
    listExits n es = es.flatMap fun e => e.exits n := by
  induction es with
  | nil => rfl
  | cons e es ih => rw [listExits, ih, List.flatMap_cons]

theorem methodsExits_flatMap (ms : List MethodDef) :
    methodsExits ms = ms.flatMap fun m => listExits (Nesting.inMethod m.id) m.body := by
  induction ms with
  | nil => rfl
  | cons m ms ih =>
    rcases m with ⟨_, _, _, _, body⟩
    rw [methodsExits, ih, List.flatMap_cons, MethodDef.exits]

/-- The verdicts inside a form are those on the expressions inside it, at their places. -/
theorem Form.innerExits_within (id : NodeId) (around : List ExitTarget) (form : Form) :
    form.innerExits ⟨methodAround around, leavableAround around⟩ id =
      (form.within id around).flatMap fun o =>
        o.expr.exits ⟨methodAround o.around, leavableAround o.around⟩ := by
  cases form with
  | call receiver name span arguments block =>
    cases receiver <;> rcases block with _ | ⟨_, _, _, body⟩ <;>
      simp [innerExits, within, optionExits, blockExits, listExits_flatMap, List.flatMap_map] <;> rfl
  | «while» condition body =>
    simp [innerExits, within, listExits_flatMap, List.flatMap_map]
    rfl
  | conditional kind condition consequent alternative =>
    cases alternative <;>
      simp [innerExits, within, parts, bodyExits, listExits_flatMap, List.flatMap_map]
  | defMethod m =>
    rcases m with ⟨_, _, _, _, body⟩
    simp [innerExits, within, MethodDef.exits, listExits_flatMap, List.flatMap_map]
    rfl
  | defClass c =>
    rcases c with ⟨_, _, _, _, ms⟩
    simp [innerExits, within, methodsExits_flatMap, listExits_flatMap, List.flatMap_assoc,
      List.flatMap_map]
    rfl
  | «return» value | «break» value =>
    cases value <;> simp [innerExits, within, parts, optionExits]
  | _ => simp [innerExits, within, parts, listExits_flatMap, List.flatMap_map]

/-- The verdicts on all exits in an expression, one expression after another. -/
theorem Expr.exits_occurrences (around : List ExitTarget) (e : Expr) :
    e.exits ⟨methodAround around, leavableAround around⟩ =
      (e.occurrences around).flatMap Occurrence.findings := by
  induction around, e using Expr.occurrences.induct with
  | case1 around e ih =>
    rcases e with ⟨id, span, form⟩
    rw [occurrences_eq, List.flatMap_cons, List.flatMap_assoc, exits, form.innerExits_within]
    congr 1
    exact List.flatMap_congr fun o inside => ih ⟨o, inside⟩

/-- All expressions of a program, in the order of the text. -/
def programOccurrences (bodies : List (List Expr)) : List Occurrence :=
  bodies.flatten.flatMap (·.occurrences [])

/-- What occurs in something that occurs in an expression occurs in it. -/
theorem Expr.occurrences_trans {around : List ExitTarget} {e : Expr} {o p : Occurrence}
    (outer : o ∈ e.occurrences around) (inner : p ∈ o.expr.occurrences o.around) :
    p ∈ e.occurrences around := by
  induction around, e using Expr.occurrences.induct with
  | case1 around e ih =>
    rcases Expr.mem_occurrences.1 outer with rfl | ⟨q, inside, found⟩
    · exact inner
    · exact Expr.mem_occurrences.2 (.inr ⟨q, inside, ih ⟨q, inside⟩ found⟩)

theorem mem_program_of_statement {bodies : List (List Expr)} {e : Expr}
    (statement : e ∈ bodies.flatten) : ⟨[], e⟩ ∈ programOccurrences bodies :=
  List.mem_flatMap.2 ⟨e, statement, Expr.mem_occurrences.2 (.inl rfl)⟩

/-- What is directly inside an expression of a program is in the program. -/
theorem mem_program_of_within {bodies : List (List Expr)} {o p : Occurrence}
    (member : o ∈ programOccurrences bodies)
    (inside : p ∈ o.expr.form.within o.expr.id o.around) : p ∈ programOccurrences bodies := by
  obtain ⟨e, statement, found⟩ := List.mem_flatMap.1 member
  have within : p ∈ o.expr.occurrences o.around :=
    Expr.mem_occurrences.2 (.inr ⟨p, inside, Expr.mem_occurrences.2 (.inl rfl)⟩)
  exact List.mem_flatMap.2 ⟨e, statement, Expr.occurrences_trans found within⟩

theorem exits_program (bodies : List (List Expr)) :
    bodies.flatMap (listExits Nesting.topLevel) =
      (programOccurrences bodies).flatMap Occurrence.findings := by
  rw [programOccurrences, List.flatMap_assoc, List.flatten_eq_flatMap, List.flatMap_assoc]
  refine List.flatMap_congr fun body _ => ?_
  rw [listExits_flatMap]
  exact List.flatMap_congr fun e _ => Expr.exits_occurrences [] e

theorem exits_errors (bodies : List (List Expr)) :
    (bodies.flatMap (listExits Nesting.topLevel)).filterMap ExitFinding.error? =
      (programOccurrences bodies).filterMap Occurrence.offence? := by
  rw [exits_program, List.filterMap_flatMap, List.filterMap_eq_flatMap_toList]
  exact List.flatMap_congr fun o _ => o.findings_errors

theorem exits_entries (bodies : List (List Expr)) :
    (bodies.flatMap (listExits Nesting.topLevel)).filterMap ExitFinding.entry? =
      (programOccurrences bodies).filterMap fun o => o.target?.map (o.expr.id, ·) := by
  rw [exits_program, List.filterMap_flatMap, List.filterMap_eq_flatMap_toList]
  exact List.flatMap_congr fun o _ => o.findings_entries

section Identity

variable {bodies : List (List Expr)} {o o' : Occurrence}

/-- The numbers of an expression and of the methods that it defines. -/
def Occurrence.numbers (o : Occurrence) : List Nat :=
  o.expr.id.val :: o.expr.form.methods.map fun m => m.id.val

theorem numbers_nodup (distinct : (listIds bodies.flatten).Nodup) :
    ((programOccurrences bodies).flatMap Occurrence.numbers).Nodup := by
  have counted (i : Nat) (es : List Expr) :
      ((es.flatMap (·.occurrences [])).flatMap Occurrence.numbers).count i ≤ (listIds es).count i := by
    induction es with
    | nil => exact Nat.le_refl _
    | cons e es ih =>
      simp only [List.flatMap_cons, List.flatMap_append, List.count_append, listIds]
      exact Nat.add_le_add (e.count_occurrences_le i []) ih
  exact List.nodup_iff_count.2 fun i =>
    Nat.le_trans (counted i bodies.flatten) (List.nodup_iff_count.1 distinct i)

theorem ids_nodup (distinct : (listIds bodies.flatten).Nodup) :
    ((programOccurrences bodies).map (·.expr.id)).Nodup := by
  refine List.pairwise_map.2 ((List.nodup_flatMap.1 (numbers_nodup distinct)).2.imp ?_)
  intro o o' disjoint same
  exact disjoint List.mem_cons_self (same ▸ List.mem_cons_self)

/-- Numbers tell the expressions of a program apart. -/
theorem occurrence_unique (distinct : (listIds bodies.flatten).Nodup)
    (first : o ∈ programOccurrences bodies) (second : o' ∈ programOccurrences bodies) {i : Nat}
    (here : i ∈ o.numbers) (there : i ∈ o'.numbers) : o = o' := by
  have apart := (List.nodup_flatMap.1 (numbers_nodup distinct)).2
  have : Std.Symm (Function.onFun List.Disjoint Occurrence.numbers) :=
    ⟨fun _ _ disjoint _ there here => disjoint here there⟩
  by_contra other
  exact apart.forall first second other here there

theorem method_unique (distinct : (listIds bodies.flatten).Nodup)
    (first : o ∈ programOccurrences bodies) (second : o' ∈ programOccurrences bodies)
    {m m' : MethodDef} (here : m ∈ o.expr.form.methods) (there : m' ∈ o'.expr.form.methods)
    (same : m.id = m'.id) : m = m' := by
  have listed {o : Occurrence} {m : MethodDef} (member : m ∈ o.expr.form.methods) :
      m.id.val ∈ o.numbers := List.mem_cons_of_mem _ (List.mem_map_of_mem (f := (·.id.val)) member)
  cases occurrence_unique distinct first second (listed here) (same ▸ listed there)
  have once := (List.nodup_flatMap.1 (numbers_nodup distinct)).1 o first
  exact List.inj_on_of_nodup_map (List.nodup_cons.1 once).2 here there (congrArg NodeId.val same)

end Identity

section Yields

theorem listContainsYield_iff {es : List Expr} :
    listContainsYield es = true ↔ ∃ e ∈ es, e.hasYield = true := by
  induction es with
  | nil => simp [listContainsYield]
  | cons e es ih => simp [listContainsYield, ih]

theorem Form.hasYield_iff {form : Form} : form.hasYield = true ↔
    (∃ arguments, form = .yield arguments) ∨ ∃ e ∈ form.parts, e.hasYield = true := by
  cases form with
  | call receiver name span arguments block =>
    cases receiver <;> rcases block with _ | ⟨_, _, _, body⟩ <;>
      simp [hasYield, parts, optionContainsYield, blockContainsYield, listContainsYield_iff, or_assoc,
        or_and_right, exists_or]
  | conditional kind condition consequent alternative =>
    cases alternative <;>
      simp [hasYield, parts, bodyContainsYield, listContainsYield_iff, or_assoc, or_and_right,
        exists_or]
  | «return» value | «break» value => cases value <;> simp [hasYield, parts, optionContainsYield]
  | _ => simp [hasYield, parts, listContainsYield_iff]

variable {around : List ExitTarget} {e : Expr} {o : Occurrence}

/-- Where a yield occurs outside definitions, the method around it is the one around the whole. -/
theorem exists_yield (yields : e.hasYield = true) :
    ∃ o ∈ e.occurrences around, o.IsYield ∧ methodAround o.around = methodAround around := by
  induction around, e using Expr.occurrences.induct with
  | case1 around e ih =>
    rcases e with ⟨id, span, form⟩
    rcases Form.hasYield_iff.1 yields with ⟨arguments, rfl⟩ | ⟨d, part, yields⟩
    · exact ⟨_, Expr.mem_occurrences.2 (.inl rfl), ⟨arguments, rfl⟩, rfl⟩
    · obtain ⟨p, inside, rfl, same⟩ : ∃ p ∈ form.within id around, p.expr = d ∧
          methodAround p.around = methodAround around := Form.exists_within_of_part part
      obtain ⟨o, found, yield, method⟩ := ih ⟨p, inside⟩ yields
      exact ⟨o, Expr.mem_occurrences.2 (.inr ⟨p, inside, found⟩), yield, method.trans same⟩

/-- A yield that occurs in an expression stands in it outside definitions, or in a method that is
defined in it and yields. -/
theorem yield_cases (found : o ∈ e.occurrences around) (yield : o.IsYield) :
    (e.hasYield = true ∧ methodAround o.around = methodAround around) ∨
      ∃ p ∈ e.occurrences around, ∃ m ∈ p.expr.form.methods,
        methodAround o.around = some m.id ∧ m.yields = true := by
  induction around, e using Expr.occurrences.induct with
  | case1 around e ih =>
    rcases e with ⟨id, span, form⟩
    have itself : (⟨around, ⟨id, span, form⟩⟩ : Occurrence) ∈
        Expr.occurrences around ⟨id, span, form⟩ := Expr.mem_occurrences.2 (.inl rfl)
    rcases Expr.mem_occurrences.1 found with rfl | ⟨p, inside, found⟩
    · exact .inl ⟨Form.hasYield_iff.2 (.inl yield), rfl⟩
    · rcases ih ⟨p, inside⟩ found with ⟨yields, method⟩ | ⟨q, deeper, nested⟩
      · rcases Form.within_cases inside with ⟨part, same⟩ | ⟨m, defined, statement, under⟩
        · exact .inl ⟨Form.hasYield_iff.2 (.inr ⟨_, part, yields⟩), method.trans same⟩
        · refine .inr ⟨_, itself, m, defined, ?_, listContainsYield_iff.2 ⟨_, statement, yields⟩⟩
          rw [method, under]
          rfl
      · exact .inr ⟨q, Expr.mem_occurrences.2 (.inr ⟨p, inside, deeper⟩), nested⟩

end Yields

namespace Definitions

variable {d : Definitions} {m : MethodEntry}

theorem enterMethods_methods {owner : Option String} {ms : List MethodDef}
    (entered : m ∈ (ms.foldl (fun d m => d.enterMethod owner m) d).methods) :
    m ∈ d.methods ∨ m.definition ∈ ms := by
  induction ms generalizing d with
  | nil => exact .inl entered
  | cons n ms ih =>
    rcases ih entered with entered | later
    · rcases Array.mem_push.1 entered with old | rfl
      · exact .inl old
      · exact .inr List.mem_cons_self
    · exact .inr (List.mem_cons_of_mem n later)

theorem enterStatement_methods {e : Expr} (entered : m ∈ (d.enterStatement e).methods) :
    m ∈ d.methods ∨ m.definition ∈ e.form.methods := by
  rw [enterStatement] at entered
  split at entered
  · rename_i n form
    rw [form]
    have one : m ∈ ([n].foldl (fun d m => d.enterMethod none m) d).methods := entered
    exact enterMethods_methods one
  · rename_i c form
    rw [form]
    have opened : (d.openClass c).methods = d.methods := by
      rw [openClass]
      split <;> rfl
    rw [← opened]
    exact enterMethods_methods entered
  all_goals exact .inl entered

/-- A collected method is one that a statement of the top level defines. -/
theorem ofBodies_methods {bodies : List (List Expr)} (collected : ofBodies bodies = .ok d)
    (member : m ∈ d.methods) : ∃ e ∈ bodies.flatten, m.definition ∈ e.form.methods := by
  have entered (es : List Expr) {d : Definitions} (member : m ∈ (es.foldl enterStatement d).methods) :
      m ∈ d.methods ∨ ∃ e ∈ es, m.definition ∈ e.form.methods := by
    induction es generalizing d with
    | nil => exact .inl member
    | cons e es ih =>
      rcases ih member with here | ⟨e', later, defined⟩
      · rcases enterStatement_methods here with old | defined
        · exact .inl old
        · exact .inr ⟨e, List.mem_cons_self, defined⟩
      · exact .inr ⟨e', List.mem_cons_of_mem e later, defined⟩
  obtain ⟨rfl, -⟩ := ofBodies_steps collected
  exact (entered _ member).resolve_left (by simp [builtin])

end Definitions

/-- A statement of a collected method stands in that method alone. -/
theorem method_statement {bodies : List (List Expr)} {d : Definitions} {m : MethodEntry}
    (collected : Definitions.ofBodies bodies = .ok d) (member : m ∈ d.methods) {e : Expr}
    (statement : e ∈ m.definition.body) :
    ⟨[.method m.definition.id], e⟩ ∈ programOccurrences bodies := by
  obtain ⟨defining, top, defined⟩ := Definitions.ofBodies_methods collected member
  exact mem_program_of_within (mem_program_of_statement top)
    (Form.within_of_method defined statement)

/-- A table of exits says for each expression where it stands what the constructs around it say. -/
structure ExitTable.Lexical (table : ExitTable) (bodies : List (List Expr)) : Prop where
  /-- Just the exits have an entry. -/
  domain : ∀ node, (table.target? node).isSome ↔
    ∃ o ∈ programOccurrences bodies, o.expr.id = node ∧ o.IsExit
  returns : ∀ o ∈ programOccurrences bodies, ∀ value, o.expr.form = .return value →
    table.target? o.expr.id = some ((methodAround o.around).elim .program .method)
  breaks : ∀ o ∈ programOccurrences bodies, ∀ value, o.expr.form = .break value →
    ∃ target, leavableAround o.around = some target ∧ table.target? o.expr.id = some target
  yields : ∀ o ∈ programOccurrences bodies, o.IsYield →
    ∃ id, methodAround o.around = some id ∧ table.target? o.expr.id = some (.method id)
  /-- A collected method yields just if a yield belongs to it. -/
  yielding : ∀ d, Definitions.ofBodies bodies = .ok d → ∀ m ∈ d.methods, (m.yields = true ↔
    ∃ o ∈ programOccurrences bodies, o.IsYield ∧
      table.target? o.expr.id = some (.method m.definition.id))

/-- An exit has a target: a break stands in a block or loop body of the same definition, a yield in a
method. -/
def Occurrence.Placed (o : Occurrence) : Prop :=
  (∀ value, o.expr.form = .break value → (leavableAround o.around).isSome) ∧
    (o.IsYield → (methodAround o.around).isSome)

theorem Occurrence.placed_iff {o : Occurrence} : o.Placed ↔ o.offence? = none := by
  rcases o with ⟨around, ⟨id, span, form⟩⟩
  cases form with
  | «break» value =>
    simp only [Placed, IsYield, offence?, target?]
    cases leavableAround around <;> simp
  | yield arguments =>
    simp only [Placed, IsYield, offence?, target?]
    cases methodAround around <;> simp
  | _ => simp [Placed, IsYield, offence?]

section Resolution

variable {bodies : List (List Expr)} {table : ExitTable} {o : Occurrence}

theorem resolveExits_eq (bodies : List (List Expr)) : resolveExits bodies =
    match (programOccurrences bodies).filterMap Occurrence.offence? with
    | [] => .ok ⟨(programOccurrences bodies).filterMap fun o => o.target?.map (o.expr.id, ·)⟩
    | errors => .error errors := by
  cases found : (programOccurrences bodies).filterMap Occurrence.offence? <;>
    simp [resolveExits, exits_errors, exits_entries, found]

theorem offences_nil : (programOccurrences bodies).filterMap Occurrence.offence? = [] ↔
    ∀ o ∈ programOccurrences bodies, o.Placed := by
  simp only [List.filterMap_eq_nil_iff, Occurrence.placed_iff]

/-- The entry of an exit is its target, and there are no other entries. -/
theorem target?_iff (distinct : (listIds bodies.flatten).Nodup)
    (resolved : resolveExits bodies = .ok table) {node : NodeId} {target : ExitTarget} :
    table.target? node = some target ↔
      ∃ o ∈ programOccurrences bodies, o.expr.id = node ∧ o.target? = some target := by
  rw [resolveExits_eq] at resolved
  split at resolved
  · cases resolved
    have once : (((programOccurrences bodies).filterMap fun o =>
        o.target?.map (o.expr.id, ·)).map (·.1)).Nodup := by
      refine List.pairwise_map.2 (List.pairwise_filterMap.2 ?_)
      refine (List.pairwise_map.1 (ids_nodup distinct)).imp fun apart e found e' found' => ?_
      obtain ⟨t, -, rfl⟩ := Option.map_eq_some_iff.1 found
      obtain ⟨t', -, rfl⟩ := Option.map_eq_some_iff.1 found'
      exact apart
    rw [ExitTable.target?, lookup_eq_some_iff once]
    simp only [List.mem_filterMap, Option.map_eq_some_iff, Prod.mk.injEq]
    constructor
    · rintro ⟨o, member, t, found, rfl, rfl⟩
      exact ⟨o, member, rfl, found⟩
    · rintro ⟨o, member, rfl, found⟩
      exact ⟨o, member, target, found, rfl, rfl⟩
  · cases resolved

theorem Occurrence.isExit_of_target {target : ExitTarget} (found : o.target? = some target) :
    o.IsExit := by
  simp only [target?] at found
  split at found
  · exact .inl ⟨_, ‹_›⟩
  · exact .inr (.inl ⟨_, ‹_›⟩)
  · exact .inr (.inr ⟨_, ‹_›⟩)
  · cases found

theorem Occurrence.Placed.target (placed : o.Placed) (exit : o.IsExit) :
    ∃ target, o.target? = some target := by
  rcases exit with ⟨value, form⟩ | ⟨value, form⟩ | ⟨arguments, form⟩
  · exact ⟨_, by rw [target?, form]⟩
  · obtain ⟨t, around⟩ := Option.isSome_iff_exists.1 (placed.1 value form)
    exact ⟨t, by rw [target?, form]; exact around⟩
  · obtain ⟨id, around⟩ := Option.isSome_iff_exists.1 (placed.2 ⟨arguments, form⟩)
    exact ⟨.method id, by rw [target?, form, around]; rfl⟩

/-- The methods that yields belong to are those that are marked as yielding. -/
theorem yielding_iff (distinct : (listIds bodies.flatten).Nodup) {d : Definitions}
    (collected : Definitions.ofBodies bodies = .ok d) {m : MethodEntry} (member : m ∈ d.methods) :
    m.yields = true ↔ ∃ o ∈ programOccurrences bodies, o.IsYield ∧
      methodAround o.around = some m.definition.id := by
  have flag : m.yields = m.definition.yields := by
    obtain ⟨i, bound, found⟩ := Array.mem_iff_getElem.1 member
    exact (Definitions.ofBodies_consistent collected).yields i m
      (by rw [Array.getElem?_eq_getElem bound, found])
  obtain ⟨e, statement, defined⟩ := Definitions.ofBodies_methods collected member
  have defining := mem_program_of_statement statement
  rw [flag]
  constructor
  · intro yields
    obtain ⟨d, inside, yields⟩ := listContainsYield_iff.1 yields
    obtain ⟨o, found, yield, method⟩ : ∃ o ∈ d.occurrences [.method m.definition.id],
        o.IsYield ∧ methodAround o.around = methodAround [.method m.definition.id] :=
      exists_yield yields
    refine ⟨o, List.mem_flatMap.2 ⟨e, statement, Expr.mem_occurrences.2 (.inr ?_)⟩, yield, method⟩
    exact ⟨_, Form.within_of_method defined inside, found⟩
  · rintro ⟨o, found, yield, method⟩
    obtain ⟨e', statement', found⟩ := List.mem_flatMap.1 found
    rcases yield_cases found yield with ⟨-, outside⟩ | ⟨p, place, m', defined', method', yields⟩
    · rw [method] at outside
      cases outside
    · have same : m'.id = m.definition.id := Option.some.inj (method'.symm.trans method)
      have there : p ∈ programOccurrences bodies := List.mem_flatMap.2 ⟨e', statement', place⟩
      exact method_unique distinct there defining defined' defined same ▸ yields

/-- Every exit of a program whose nodes have numbers of their own belongs to what stands around it: a
return to the innermost method, or to the program; a break to the innermost block or loop body of the
same definition; a yield to the innermost method, which is thereby marked as yielding. If some break
or yield has nothing to belong to, all those are reported, in the order of the text. -/
theorem exits_follow_nesting (distinct : (listIds bodies.flatten).Nodup) :
    ((∃ table, resolveExits bodies = .ok table) ↔ ∀ o ∈ programOccurrences bodies, o.Placed) ∧
      (∀ table, resolveExits bodies = .ok table → table.Lexical bodies) ∧
        ∀ errors, resolveExits bodies = .error errors →
          errors = (programOccurrences bodies).filterMap Occurrence.offence? := by
  refine ⟨?_, fun table resolved => ?_, fun errors rejected => ?_⟩
  · rw [← offences_nil, resolveExits_eq]
    split <;> simp_all
  · have placed : ∀ o ∈ programOccurrences bodies, o.Placed := by
      rw [resolveExits_eq] at resolved
      split at resolved
      · exact offences_nil.1 ‹_›
      · cases resolved
    have entry {o : Occurrence} {t : ExitTarget} (member : o ∈ programOccurrences bodies)
        (target : o.target? = some t) : table.target? o.expr.id = some t :=
      (target?_iff distinct resolved).2 ⟨o, member, rfl, target⟩
    have yields : ∀ o ∈ programOccurrences bodies, o.IsYield →
        ∃ id, methodAround o.around = some id ∧ table.target? o.expr.id = some (.method id) := by
      rintro o member ⟨arguments, form⟩
      obtain ⟨id, around⟩ := Option.isSome_iff_exists.1 ((placed o member).2 ⟨arguments, form⟩)
      exact ⟨id, around, entry member (by rw [Occurrence.target?, form, around]; rfl)⟩
    refine ⟨fun node => ?_, fun o member value form => ?_, fun o member value form => ?_, yields,
      fun d collected m listed => ?_⟩
    · rw [Option.isSome_iff_exists]
      constructor
      · rintro ⟨t, found⟩
        obtain ⟨o, member, same, target⟩ := (target?_iff distinct resolved).1 found
        exact ⟨o, member, same, Occurrence.isExit_of_target target⟩
      · rintro ⟨o, member, rfl, exit⟩
        obtain ⟨t, target⟩ := (placed o member).target exit
        exact ⟨t, entry member target⟩
    · exact entry member (by rw [Occurrence.target?, form])
    · obtain ⟨t, around⟩ := Option.isSome_iff_exists.1 ((placed o member).1 value form)
      exact ⟨t, around, entry member (by rw [Occurrence.target?, form]; exact around)⟩
    · rw [yielding_iff distinct collected listed]
      refine exists_congr fun o => and_congr_right fun member => and_congr_right fun yield => ?_
      obtain ⟨id, around, found⟩ := yields o member yield
      rw [around, found]
      simp
  · rw [resolveExits_eq] at rejected
    split at rejected
    · cases rejected
    · cases rejected
      rfl

end Resolution

/-- A loop in a method that yields, a method in a method, a block that is left, and a class. -/
def nestedExitsText : String :=
  "def each(n)\n  while n > 0\n    yield n\n    break n if n > 9\n  end\n" ++
    "  def inner\n    return 1\n  end\nend\n" ++
    "class Box\n  def all\n    each(3) { |n| yield n }\n  end\nend\n" ++
    "each(2) do |k|\n  break k\nend\nreturn 5\n"

theorem nestedExitsText_follows_nesting : ∃ ms next,
    Module.readAll ⟨0⟩ [nestedExitsText] = .ok (ms, next) ∧
      (listIds (ms.map (·.body)).flatten).Nodup ∧
      (∃ table, resolveExits (ms.map (·.body)) = .ok table) ∧
      ((∃ table, resolveExits (ms.map (·.body)) = .ok table) ↔
          ∀ o ∈ programOccurrences (ms.map (·.body)), o.Placed) ∧
        (∀ table, resolveExits (ms.map (·.body)) = .ok table → table.Lexical (ms.map (·.body))) ∧
          ∀ errors, resolveExits (ms.map (·.body)) = .error errors →
            errors = (programOccurrences (ms.map (·.body))).filterMap Occurrence.offence? := by
  obtain ⟨⟨ms, next⟩, read, sound⟩ := exists_value (Module.readAll ⟨0⟩ [nestedExitsText])
    (fun r => (resolveExits (r.1.map (·.body))).isOk) (by decide +kernel)
  have distinct := (Module.readAll_ids read).1
  exact ⟨ms, next, read, distinct, exists_ok _ sound, exits_follow_nesting distinct⟩

end TypedBlocks

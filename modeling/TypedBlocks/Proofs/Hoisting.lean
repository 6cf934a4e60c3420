import TypedBlocks.Proofs.CompilationSteps
import TypedBlocks.Proofs.Completions
import TypedBlocks.Proofs.LongerRuns
import TypedBlocks.Proofs.Rearrangements

/-!
# Hoisting

Where a definition stands among the statements of a program makes no difference. All definitions are
collected before anything is elaborated, so a definition itself is elaborated to a nil that nothing
comes of, unless it is the last statement. Programs that differ in such nils alone run alike.
-/
namespace TypedBlocks

namespace Inference

section Settings

variable {d : Definitions} {limits : Limits} {exits exits' : ExitTable}
  {captures captures' : CaptureTable}

theorem scopeOf_entries (blocks : captures.block? = captures'.block?) (name : String) :
    ∀ a : BodyContext, a.scopeOf captures name = a.scopeOf captures' name
  | ⟨_, _, _, _, _, .block _ definer⟩ => by
    unfold BodyContext.scopeOf
    rw [blocks, scopeOf_entries blocks name definer]
  | ⟨_, _, _, _, _, .body⟩ | ⟨_, _, _, _, _, .expansion _ _ _⟩ => rfl

theorem localVar_entries (blocks : captures.block? = captures'.block?) :
    Pass.localVar captures = Pass.localVar captures' := by
  funext a name
  rw [Pass.localVar, Pass.localVar, scopeOf_entries blocks]

theorem elaborateArms_entries (elaborate : Elaborate) (here : Place) (call : CallSyntax)
    (temps : List Typed.SlotId) (before : List ScopeVar) (choices : List (List Ty)) :
    elaborateArms ⟨d, exits, captures, limits⟩ elaborate here call temps before choices =
      elaborateArms ⟨d, exits', captures', limits⟩ elaborate here call temps before choices := by
  induction choices with
  | nil => rfl
  | cons types rest ih =>
    simp only [elaborateArms, ih]
    rfl

/-- Of the tables of exits and captures, elaboration uses the entries it finds by number. -/
theorem elaborateForm_entries (targets : exits.target? = exits'.target?)
    (blocks : captures.block? = captures'.block?) (elaborate : Elaborate) :
    elaborateForm ⟨d, exits, captures, limits⟩ elaborate =
      elaborateForm ⟨d, exits', captures', limits⟩ elaborate := by
  funext here e
  unfold elaborateForm
  cases e.form with
  | read v =>
    obtain ⟨kind, name⟩ := v
    cases kind with
    | «local» => simp only [elaborateRead, elaborateLocal, localVar_entries blocks]
    | _ => rfl
  | assign v span value => simp only [elaborateAssignment, localVar_entries blocks]
  | «return» value | «break» value => simp only [elaborateExit, targets]
  | call receiver name nameSpan arguments block =>
    have arms := @elaborateArms_entries d limits exits exits' captures captures'
    simp only [elaborateCall, elaborateDispatch, arms]
    rfl
  | _ => rfl

theorem elaborateExpr_entries (targets : exits.target? = exits'.target?)
    (blocks : captures.block? = captures'.block?) (fuel : Nat) :
    elaborateExpr ⟨d, exits, captures, limits⟩ fuel =
      elaborateExpr ⟨d, exits', captures', limits⟩ fuel := by
  induction fuel with
  | zero => rfl
  | succ fuel ih =>
    funext here e
    rw [elaborateExpr, elaborateExpr, ih, elaborateForm_entries targets blocks]

end Settings

/-- Both steps fail, or both leave the same state behind and have related results. -/
def Pass.Alike {α β : Type} (R : α → β → Prop) (x : Pass α) (y : Pass β) : Prop :=
  ∀ s, (x s = none ∧ y s = none) ∨
    ∃ a b s', x s = some (a, s') ∧ y s = some (b, s') ∧ R a b

namespace Pass

variable {α β γ δ : Type} {R : α → β → Prop} {S : γ → δ → Prop}

theorem alike_pure {a : α} {b : β} (related : R a b) : Alike R (pure a) (pure b) :=
  fun s => .inr ⟨a, b, s, rfl, rfl, related⟩

theorem bind_none {x : Pass α} {f : α → Pass γ} {s : PassState} (fails : x s = none) :
    (x >>= f) s = none := by
  change (x s).bind _ = none
  rw [fails]
  rfl

theorem alike_bind {x : Pass α} {y : Pass β} {f : α → Pass γ} {g : β → Pass δ}
    (first : Alike R x y) (rest : ∀ a b, R a b → Alike S (f a) (g b)) :
    Alike S (x >>= f) (y >>= g) := by
  intro s
  rcases first s with ⟨fails, fails'⟩ | ⟨a, b, s', run, run', related⟩
  · exact .inl ⟨bind_none fails, bind_none fails'⟩
  · rw [bind_run run, bind_run run']
    exact rest a b related s'

/-- The same first step. -/
theorem alike_step {x : Pass α} {f : α → Pass γ} {g : α → Pass δ}
    (rest : ∀ a, Alike S (f a) (g a)) : Alike S (x >>= f) (x >>= g) := by
  intro s
  cases run : x s with
  | none => exact .inl ⟨bind_none run, bind_none run⟩
  | some r =>
    rw [bind_run run, bind_run run]
    exact rest r.1 r.2

/-- The first result is changed after the last step. -/
theorem alike_map {T : γ → β → Prop} {x : Pass α} {y : Pass β} {f : α → γ} (first : Alike R x y)
    (rest : ∀ a b, R a b → T (f a) b) : Alike T (x >>= fun a => pure (f a)) y := by
  intro s
  rcases first s with ⟨fails, fails'⟩ | ⟨a, b, s', run, run', related⟩
  · exact .inl ⟨bind_none fails, fails'⟩
  · rw [bind_run run]
    exact .inr ⟨f a, b, s', rfl, run', rest a b related⟩

/-- Steps that are like the same one are like each other. -/
theorem Alike.meet {T : γ → β → Prop} {x : Pass α} {y : Pass β} {z : Pass γ} (first : Alike R x y)
    (second : Alike T z y) : Alike (fun a c => ∃ b, R a b ∧ T c b) x z := by
  intro s
  rcases first s with ⟨fails, stuck⟩ | ⟨a, b, s', run, middle, related⟩
  · rcases second s with ⟨fails', -⟩ | ⟨c, b', s'', -, middle', -⟩
    · exact .inl ⟨fails, fails'⟩
    · rw [stuck] at middle'
      cases middle'
  · rcases second s with ⟨-, stuck⟩ | ⟨c, b', s'', run', middle', related'⟩
    · rw [stuck] at middle
      cases middle
    · rw [middle] at middle'
      cases middle'
      exact .inr ⟨a, c, s', run, run', b, related, related'⟩

end Pass

open Pass

/-- The first list is the second one with nils put in before its last expression. -/
inductive Padded : List Typed.Expr → List Typed.Expr → Prop where
  | last (c : Typed.Expr) : Padded [c] [c]
  | keep (c : Typed.Expr) {cs ds : List Typed.Expr} : Padded cs ds → Padded (c :: cs) (c :: ds)
  | pad {cs ds : List Typed.Expr} : Padded cs ds → Padded (Typed.Expr.nil :: cs) ds

section Parts

variable {cx : Setting} {fuel : Nat} {here : Place} {s s' : PassState} {es fs : List Expr}

theorem elaborateExpr_definition {d : Expr} (definition : d.isDefinition = true) :
    elaborateExpr cx (fuel + 1) here d = pure Elaborated.nil := by
  unfold Expr.isDefinition at definition
  rw [elaborateExpr, elaborateForm]
  cases form : d.form with
  | defMethod _ | defClass _ | defLib _ => rfl
  | _ => simp [form] at definition

theorem andThen_congr {ends ends' : Completions} (falls : ends.fallsThrough = true)
    (falls' : ends'.fallsThrough = true) (exits : ends.dropNormal = ends'.dropNormal)
    (next : Completions) : ends.andThen next = ends'.andThen next := by
  rw [Completions.andThen, Completions.andThen, if_pos falls, if_pos falls', exits]

/-- Without the definitions before the last statement, elaboration leaves out nils and nothing
else. -/
theorem elaborateParts_hoisted (l : Expr) {ends ends' : Completions}
    (falls : ends.fallsThrough = true) (falls' : ends'.fallsThrough = true)
    (exits : ends.dropNormal = ends'.dropNormal) :
    Alike (fun p q => Padded p.1 q.1 ∧ p.2 = q.2)
      (elaborateParts (elaborateExpr cx (fuel + 1)) here ends (es ++ [l]))
      (elaborateParts (elaborateExpr cx (fuel + 1)) here ends'
        (es.filter (!Expr.isDefinition ·) ++ [l])) := by
  induction es generalizing ends ends' with
  | nil =>
    refine alike_step fun first => ?_
    dsimp only
    rw [andThen_congr falls falls' exits]
    split
    · exact alike_pure ⟨.last _, rfl⟩
    · exact alike_pure ⟨.last _, rfl⟩
  | cons e es ih =>
    cases definition : e.isDefinition with
    | true =>
      rw [List.filter_cons_of_neg (by simp [definition]), List.cons_append, elaborateParts,
        elaborateExpr_definition definition, pure_bind]
      have on : (ends.andThen Elaborated.nil.ends).fallsThrough = true := by
        rw [Completions.fallsThrough, Completions.andThen_normal _ falls]
        rfl
      have same : (ends.andThen Elaborated.nil.ends).dropNormal = ends'.dropNormal := by
        rw [Completions.andThen, if_pos falls, exits]
        rfl
      dsimp only
      rw [if_pos on]
      exact alike_map (ih on falls' same) fun p q related => ⟨.pad related.1, related.2⟩
    | false =>
      rw [List.filter_cons_of_pos (by simp [definition]), List.cons_append, List.cons_append]
      refine alike_step fun first => ?_
      dsimp only
      rw [andThen_congr falls falls' exits]
      split
      · rename_i on
        refine alike_bind (ih on on rfl) fun p q related => ?_
        exact alike_pure ⟨.keep _ related.1, related.2⟩
      · exact alike_pure ⟨.last _, rfl⟩

/-- Both are expressions in order, the same ones up to nils before the last. -/
def SameCode (c d : Typed.Expr) : Prop :=
  ∃ cs ds common ty, Padded cs common ∧ Padded ds common ∧
    c = Typed.Expr.ofParts cs ty ∧ d = Typed.Expr.ofParts ds ty

theorem elaborateBody_hoisted (rearranged : Rearranged es fs) :
    Alike (fun b b' => b.ends = b'.ends ∧ SameCode b.code b'.code)
      (elaborateBody (elaborateExpr cx (fuel + 1)) here es)
      (elaborateBody (elaborateExpr cx (fuel + 1)) here fs) := by
  have last := rearranged.last
  rcases es.eq_nil_or_concat' with rfl | ⟨es₀, l, rfl⟩
  · rw [← rearranged.perm.nil_eq]
    exact alike_pure ⟨rfl, [Typed.Expr.nil], [Typed.Expr.nil], [Typed.Expr.nil], some Ty.nil,
      .last _, .last _, rfl, rfl⟩
  · rcases fs.eq_nil_or_concat' with rfl | ⟨fs₀, l', rfl⟩
    · rw [List.getLast?_concat] at last
      cases last
    · rw [List.getLast?_concat, List.getLast?_concat] at last
      cases last
      have others := rearranged.others
      rw [List.filter_append, List.filter_append] at others
      have hoisted (es : List Expr) := @elaborateParts_hoisted cx fuel here es l
        (Completions.ofNormal Ty.nil) (Completions.ofNormal Ty.nil) rfl rfl rfl
      have left := hoisted es₀
      rw [List.append_cancel_right others] at left
      have nonempty (es : List Expr) : ¬ (es ++ [l]).isEmpty = true := by simp
      simp only [elaborateBody, if_neg (nonempty _)]
      refine alike_bind (left.meet (hoisted fs₀)) fun parts parts' related => ?_
      obtain ⟨common, ⟨padded, ends⟩, padded', ends'⟩ := related
      have same := ends.trans ends'.symm
      exact alike_pure ⟨same, parts.1, parts'.1, common.1, parts.2.normal, padded, padded', rfl,
        same ▸ rfl⟩

end Parts

/-- Both programs are the same but for nils in the top-level body. -/
structure Hoisted (p q : Typed.Program) : Prop where
  main : p.main = { q.main with body := p.main.body }
  methods : q.methods = p.methods
  body : SameCode p.main.body q.main.body

section Programs

variable {d : Definitions} {limits : Limits} {exits exits' : ExitTable}
  {captures captures' : CaptureTable} {fuel : Nat} {es fs : List Expr}
  (targets : exits.target? = exits'.target?) (blocks : captures.block? = captures'.block?)
  (rearranged : Rearranged es fs)

include targets blocks rearranged

theorem elaborateProgram_hoisted :
    Alike Hoisted (elaborateProgram ⟨d, exits, captures, limits⟩ (fuel + 1) es)
      (elaborateProgram ⟨d, exits', captures', limits⟩ (fuel + 1) fs) := by
  unfold elaborateProgram
  rw [elaborateExpr_entries targets blocks]
  refine alike_step fun frame => alike_step fun self =>
    alike_bind (elaborateBody_hoisted rearranged) fun b b' related => alike_step fun s => ?_
  refine alike_pure ⟨?_, rfl, related.2⟩
  rw [related.1]

theorem iterate_hoisted (left : Nat) (ts : Tables) :
    (∃ failure, iterate ⟨d, exits, captures, limits⟩ (fuel + 1) es left ts = .error failure ∧
      iterate ⟨d, exits', captures', limits⟩ (fuel + 1) fs left ts = .error failure) ∨
    ∃ p q, iterate ⟨d, exits, captures, limits⟩ (fuel + 1) es left ts = .ok p ∧
      iterate ⟨d, exits', captures', limits⟩ (fuel + 1) fs left ts = .ok q ∧ Hoisted p q := by
  induction left generalizing ts with
  | zero => exact .inl ⟨_, rfl, rfl⟩
  | succ left ih =>
    simp only [iterate, StateT.run]
    rcases elaborateProgram_hoisted targets blocks rearranged (PassState.start ts) with
      ⟨fails, fails'⟩ | ⟨p, q, s, run, run', hoisted⟩
    · rw [fails, fails']
      exact .inl ⟨_, rfl, rfl⟩
    · rw [run, run']
      dsimp only
      split
      · exact ih _
      · split
        · split
          · exact .inr ⟨p, q, rfl, rfl, hoisted⟩
          · exact .inl ⟨_, rfl, rfl⟩
        · exact ih _

end Programs

section Runs

open Typed

variable {p q : Program} {fuel : Nat} {cs ds : List Typed.Expr} {c d : Typed.Expr}

theorem evalSequence_padded (padded : Padded cs ds) (v w : Value) :
    evalSequence (p.eval (fuel + 1)) v cs = evalSequence (p.eval (fuel + 1)) w ds := by
  induction padded generalizing v w with
  | last c => rfl
  | keep c padded ih =>
    rw [evalSequence, evalSequence]
    exact congrArg _ (funext fun u => ih u u)
  | pad padded ih => exact ih .nil w

theorem ofParts_below (cs : List Typed.Expr) (t : Option Ty) :
    Below (p.eval fuel (.ofParts cs t)) (p.eval (fuel + 1) ⟨t, .sequence cs⟩) := by
  match cs with
  | [] | _ :: _ :: _ => exact eval_below (Nat.le_succ fuel) _
  | [⟨u, node⟩] =>
    have alone : p.eval (fuel + 1) ⟨t, .sequence [⟨u, node⟩]⟩ = p.eval fuel ⟨u, node⟩ := bind_pure _
    rw [alone, eval_retyped u t]
    exact follows_refl _

theorem below_ofParts (cs : List Typed.Expr) (t : Option Ty) :
    Below (p.eval fuel ⟨t, .sequence cs⟩) (p.eval fuel (.ofParts cs t)) := by
  match fuel, cs with
  | _, [] | _, _ :: _ :: _ => exact follows_refl _
  | 0, [c] => exact follows_refl _
  | fuel + 1, [⟨u, node⟩] =>
    have alone : p.eval (fuel + 1) ⟨t, .sequence [⟨u, node⟩]⟩ = p.eval fuel ⟨u, node⟩ := bind_pure _
    rw [alone, eval_retyped u t]
    exact eval_below (Nat.le_succ fuel) _

/-- Nils before the last expression cost no more than one unit of fuel. -/
theorem SameCode.below (same : SameCode c d) : Below (p.eval fuel c) (p.eval (fuel + 1) d) := by
  obtain ⟨cs, ds, common, t, padded, padded', rfl, rfl⟩ := same
  cases fuel with
  | zero => exact fun m => .inr ⟨_, m, rfl, rfl⟩
  | succ fuel =>
    have parts : p.eval (fuel + 2) ⟨t, .sequence cs⟩ = p.eval (fuel + 2) ⟨t, .sequence ds⟩ :=
      (evalSequence_padded padded .nil .nil).trans (evalSequence_padded padded' .nil .nil).symm
    exact (ofParts_below cs t).trans (parts ▸ below_ofParts ds t)

theorem Hoisted.finishes (hoisted : Hoisted p q) {a : Answer} {m : Machine}
    (finishes : p.Finishes a m) : q.Finishes a m := by
  obtain ⟨ends, fuel, run⟩ := finishes
  refine ⟨ends, fuel + 1, run_of_below ?_ ends run⟩
  rw [eval_methods hoisted.methods, hoisted.main]
  exact follows_withSlots (follows_landing nofun hoisted.body.below)

theorem Hoisted.symm (hoisted : Hoisted p q) : Hoisted q p where
  main := by rw [hoisted.main]
  methods := hoisted.methods.symm
  body := by
    obtain ⟨cs, ds, common, t, padded, padded', left, right⟩ := hoisted.body
    exact ⟨ds, cs, common, t, padded', padded, right, left⟩

end Runs

end Inference

namespace Compilation

open Inference Typed

variable {limits : Limits} {bodies bodies' : List (List Expr)}

theorem ofBodies_hoisted (distinct : (listIds bodies.flatten).Nodup)
    (rearranged : Rearranged bodies.flatten bodies'.flatten) {c : Compilation}
    (compiled : ofBodies limits bodies = .ok c) :
    ∃ c', ofBodies limits bodies' = .ok c' ∧ Hoisted c.program c'.program := by
  obtain ⟨definitions, collected, resolved, bound, inferred⟩ := ofBodies_inferred compiled
  obtain ⟨exits, resolved', targets⟩ := resolveExits_rearranged distinct rearranged resolved
  have blocks : c.captures.block? = (bindBlocks bodies').block? :=
    bound ▸ bindBlocks_rearranged distinct rearranged
  obtain ⟨fuel, ample⟩ := Nat.exists_eq_succ_of_ne_zero (n := Inference.ampleFuel) (by decide)
  rw [infer, ample] at inferred
  rcases @iterate_hoisted definitions limits c.exits exits c.captures (bindBlocks bodies') fuel
    bodies.flatten bodies'.flatten targets blocks rearranged limits.maxPasses Tables.empty with
    ⟨failure, fails, -⟩ | ⟨p, q, run, run', hoisted⟩
  · rw [fails] at inferred
    cases inferred
  · rw [run] at inferred
    cases inferred
    refine ⟨⟨q, exits, bindBlocks bodies'⟩, ?_, hoisted⟩
    rw [Definitions.ofBodies_rearranged distinct rearranged] at collected
    simp only [ofBodies, collected, resolved', infer, ample]
    rw [run']

/-- Definitions can stand anywhere among the statements of a program before the last: it compiles
or not, and if it does, it has the same type and ends in the same way. -/
theorem definitions_hoisted (limits : Limits) (bodies bodies' : List (List Expr))
    (distinct : (listIds bodies.flatten).Nodup)
    (rearranged : Rearranged bodies.flatten bodies'.flatten) :
    ((∃ c, ofBodies limits bodies = .ok c) ↔ ∃ c', ofBodies limits bodies' = .ok c') ∧
    ∀ c c', ofBodies limits bodies = .ok c → ofBodies limits bodies' = .ok c' →
      c.resultTy? = c'.resultTy? ∧
        ∀ a m, c.program.Finishes a m ↔ c'.program.Finishes a m := by
  constructor
  · constructor
    · rintro ⟨c, compiled⟩
      obtain ⟨c', compiled', -⟩ := ofBodies_hoisted distinct rearranged compiled
      exact ⟨c', compiled'⟩
    · rintro ⟨c', compiled'⟩
      obtain ⟨c, compiled, -⟩ :=
        ofBodies_hoisted (rearranged.distinct distinct) rearranged.symm compiled'
      exact ⟨c, compiled⟩
  · intro c c' compiled compiled'
    obtain ⟨c₁, compiled₁, hoisted⟩ := ofBodies_hoisted distinct rearranged compiled
    rw [compiled'] at compiled₁
    cases compiled₁
    refine ⟨?_, fun a m => ⟨hoisted.finishes, hoisted.symm.finishes⟩⟩
    rw [resultTy?, Program.resultTy?, hoisted.main]
    rfl

/-- A class that stands behind the statement that makes an object of it. -/
def earlyText : String :=
  "box = Box.new(20)\nclass Box\n  def initialize(v)\n    @v = v\n  end\n" ++
    "  def twice\n    @v + @v\n  end\nend\nbox.twice\n"

theorem earlyText_hoisted : ∃ ms next e d es,
    Module.readAll ⟨0⟩ [earlyText] = .ok (ms, next) ∧ ms.map (·.body) = [e :: d :: es] ∧
      (listIds [e :: d :: es].flatten).Nodup ∧
      Rearranged [e :: d :: es].flatten [d :: e :: es].flatten ∧
      (∃ c, ofBodies Limits.standard [e :: d :: es] = .ok c) ∧
      ((∃ c, ofBodies Limits.standard [e :: d :: es] = .ok c) ↔
        ∃ c', ofBodies Limits.standard [d :: e :: es] = .ok c') ∧
      ∀ c c', ofBodies Limits.standard [e :: d :: es] = .ok c →
        ofBodies Limits.standard [d :: e :: es] = .ok c' →
        c.resultTy? = c'.resultTy? ∧
          ∀ a m, c.program.Finishes a m ↔ c'.program.Finishes a m := by
  obtain ⟨⟨ms, next⟩, read, holds⟩ := exists_value (Module.readAll ⟨0⟩ [earlyText])
    (fun r => r.1.map (·.body.map Expr.isDefinition) == [[false, true, false]] &&
      (ofBodies Limits.standard (r.1.map (·.body))).isOk) (by decide +kernel)
  obtain ⟨reads, compiles⟩ := Bool.and_eq_true_iff.1 holds
  obtain ⟨m, none, rfl, kinds, noMore⟩ := List.map_eq_cons_iff.1 (beq_iff_eq.1 reads)
  obtain rfl := List.map_eq_nil_iff.1 noMore
  obtain ⟨e, more, body, other, kinds⟩ := List.map_eq_cons_iff.1 kinds
  obtain ⟨d, es, rfl, definition, kinds⟩ := List.map_eq_cons_iff.1 kinds
  have last : es ≠ [] := by
    rintro rfl
    cases kinds
  have distinct := (Module.readAll_ids read).1
  rw [List.map_singleton, body] at distinct compiles
  have rearranged : Rearranged [e :: d :: es].flatten [d :: e :: es].flatten := by
    simpa using Rearranged.swap definition other last
  exact ⟨_, next, e, d, es, read, congrArg (fun b => [b]) body, distinct, rearranged,
    exists_ok _ compiles, definitions_hoisted Limits.standard _ _ distinct rearranged⟩

end Compilation

end TypedBlocks

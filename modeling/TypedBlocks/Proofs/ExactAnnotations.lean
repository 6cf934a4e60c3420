import TypedBlocks.Proofs.TracedExits

/-!
# Exact annotations

In a compiled program each target is numbered once, so nothing else that is numbered the same comes in
between an exit and its target: the types at calls and loops are merged from the values of the exits
that end there, and from nothing else.
-/
namespace TypedBlocks

namespace Typed

open Inference (RunTarget)

variable {e f : Expr} {V : Vocabulary}

theorem Expr.Inside.points_sublist (inside : e.Inside f) : e.points.Sublist f.points := by
  induction inside with
  | self e => exact .refl _
  | @part d e f direct inside ih =>
    rw [f.points_node]
    exact ih.trans (Node.points_sublist direct)

theorem Program.points_nodup {p : Program} {m : Method} (distinct : p.points.Nodup)
    (member : m ∈ p.allMethods) (inside : e.Inside m.body) : e.points.Nodup := by
  have own : m.points.Nodup := by
    rcases List.mem_cons.1 member with rfl | listed
    · exact (List.nodup_append.1 distinct).1
    · exact (List.pairwise_flatMap.1 (List.nodup_append.1 distinct).2.1).1 m listed
  exact (List.nodup_cons.1 own).2.sublist inside.points_sublist

/-- All that is sent from known code has known types. -/
theorem Expr.sent_known (known : e.AllTypes (Ty.Known V)) {target : RunTarget} :
    ∀ t ∈ e.sent target, t.Known V := by
  intro t member
  obtain ⟨d, value, inside, exit, carried⟩ := mem_sent.1 member
  have direct : value ∈ d.node.parts := by
    rcases d with ⟨ty, node⟩
    cases node <;> cases exit <;> exact List.mem_cons_self
  exact known value (.trans (.part direct (.self value)) inside) t carried

theorem Expr.WellTyped.exit_typed {σ : Signatures} {Γ : Context} (typed : e.WellTyped σ Γ)
    {target : RunTarget} {value : Expr} (exit : e.node.exit? = some (target, value)) :
    value.ty.isSome := by
  have rule := typed.rule
  rcases e with ⟨ty, node⟩
  cases node <;> cases exit <;> exact rule.1

theorem Expr.sent_eq_nil {σ : Signatures} {Γ : Context} (typed : e.WellTyped σ Γ)
    {target : RunTarget} : e.sent target = [] ↔
      ∀ d : Expr, d.Inside e → ∀ value, d.node.exit? ≠ some (target, value) := by
  constructor
  · intro silent d inside value exit
    obtain ⟨Γ', there⟩ := typed.inside inside
    obtain ⟨t, carried⟩ := Option.isSome_iff_exists.1 (there.exit_typed exit)
    have sends : t ∈ e.sent target := mem_sent.2 ⟨d, value, inside, exit, carried⟩
    rw [silent] at sends
    cases sends
  · intro silent
    refine List.eq_nil_iff_forall_not_mem.2 fun t member => ?_
    obtain ⟨d, value, inside, exit, -⟩ := mem_sent.1 member
    exact silent d inside value exit

/-- The type is the merge of the types of all values that go to the target from inside the
expression, and there is none just if nothing goes there. -/
structure Expr.Collects (e : Expr) (target : RunTarget) (ty : Option Ty) : Prop where
  merged : ty = Ty.merge? (e.sent target)
  none : ty = none ↔ ∀ d : Expr, d.Inside e → ∀ value, d.node.exit? ≠ some (target, value)

/-- The types at the node are merged from what is sent to it, with nothing left out and nothing
added. -/
structure Expr.Merged (e : Expr) : Prop where
  breaks : ∀ c, e.node = .inline c → c.body.Collects (.break (.call c.site)) c.breakType
  returns : ∀ c, e.node = .inline c → c.body.Collects (.frame c.frame) c.returnType
  result : ∀ c, e.node = .inline c →
    e.ty = Ty.merge? (c.body.ty.toList ++ c.returnType.toList ++ c.breakType.toList)
  loop : ∀ id condition body, e.node = .while id condition body →
    e.ty = Ty.merge? (body.sent (.break (.loop id)) ++ loopEnd condition)

theorem merges_toList (a : Option Ty) : Ty.Merges a a.toList := by
  cases a with
  | none => exact .none
  | some t => exact .one t

variable {σ : Signatures} {Γ : Context}

theorem Expr.collects {target : RunTarget} {ty : Option Ty} (merges : Ty.Merges ty (e.sent target))
    (known : e.AllTypes (Ty.Known V)) (typed : e.WellTyped σ Γ) : e.Collects target ty := by
  have merged := merges.eq_merge? (sent_known known)
  refine ⟨merged, ?_⟩
  rw [merged, Ty.merge?_eq_none (sent_known known), sent_eq_nil typed]

theorem Expr.Collects.known {target : RunTarget} {ty : Option Ty} (collects : e.Collects target ty)
    (known : e.AllTypes (Ty.Known V)) : ∀ t ∈ ty, t.Known V := by
  intro t there
  rw [collects.merged] at there
  exact .merge? Ty.knownMember_flat (sent_known known) there

/-- An exact call is merged, if it is numbered apart from all in its body. -/
theorem ExpandedCall.collects {ty : Option Ty} {c : ExpandedCall}
    (exact : Expr.Exact ⟨ty, .inline c⟩) (distinct : c.points.Nodup)
    (known : c.body.AllTypes (Ty.Known V)) (typed : c.body.WellTyped σ Γ) :
    c.body.Collects (.break (.call c.site)) c.breakType ∧
      c.body.Collects (.frame c.frame) c.returnType := by
  have apart : Point.site c.site ∉ c.body.points ∧ Point.frame c.frame ∉ c.body.points := by
    rcases c with ⟨site, frame, name, selfSlot, receiver, parameters, slots, arguments, body, b, r⟩
    simp_all [ExpandedCall.points]
  exact ⟨Expr.collects (exact.1 apart.1) known typed, Expr.collects (exact.2 apart.2) known typed⟩

/-- An exact node of known types that is numbered apart is merged, if the typing rules hold. -/
theorem Expr.Exact.merged (exact : e.Exact) (distinct : e.points.Nodup)
    (known : e.AllTypes (Ty.Known V)) (typed : e.WellTyped σ Γ) : e.Merged := by
  rcases e with ⟨ty, node⟩
  have call {c : ExpandedCall} (same : node = .inline c) :
      c.body.Collects (.break (.call c.site)) c.breakType ∧
        c.body.Collects (.frame c.frame) c.returnType := by
    subst same
    have direct : c.body ∈ (Node.inline c).parts := by simp [Node.parts, Node.landing?]
    obtain ⟨Γ', inner⟩ := typed.inside (.part direct (.self c.body))
    exact c.collects exact (by simpa [points, Node.points] using distinct) (known.part direct) inner
  refine ⟨fun c same => (call same).1, fun c same => (call same).2, ?_, ?_⟩
  · rintro c rfl
    have direct : c.body ∈ (Node.inline c).parts := by simp [Node.parts, Node.landing?]
    obtain ⟨breaks, returns⟩ := call rfl
    have rule : ty = Ty.mergeOption c.body.ty (Ty.mergeOption c.returnType c.breakType) :=
      typed.rule.2.2.2.2
    have merges := (merges_toList c.body.ty).both
      ((merges_toList c.returnType).both (merges_toList c.breakType))
    rw [← rule, ← List.append_assoc] at merges
    refine merges.eq_merge? (V := V) fun t member => ?_
    simp only [List.mem_append, Option.mem_toList] at member
    rcases member with (own | returned) | broken
    · exact (known.part direct).own t own
    · exact returns.known (known.part direct) t returned
    · exact breaks.known (known.part direct) t broken
  · rintro id condition body rfl
    have direct : body ∈ (Node.while id condition body).parts := by simp [Node.parts, Node.landing?]
    have once : Point.loop id ∉ body.points := by simp_all [points, Node.points]
    refine (exact once).eq_merge? (V := V) fun t member => ?_
    rcases List.mem_append.1 member with sends | own
    · exact sent_known (known.part direct) t sends
    · rw [loopEnd] at own
      split at own
      · cases own
      · exact List.mem_singleton.1 own ▸ .nil

end Typed

namespace Inference

open Pass

variable {cx : Setting} {fuel : Nat} {statements : List Expr} {ts : Tables} {body : Elaborated}
  {s : PassState}

/-- A program without errors whose calls drop only constants as receivers is annotated exactly. -/
theorem madeProgram_annotated (consistent : cx.definitions.Consistent) (sound : s.errors = [])
    (run : elaborateBody (elaboratePlain cx fuel) mainPlace statements (enteredMain ts) =
      some (body, s)) : ∀ m ∈ (madeProgram cx body s).allMethods, m.body.Annotated := by
  obtain ⟨advances, traces⟩ := elaborateBody_traces (elaboratePlain_tracing consistent fuel) sound run
  refine List.forall_mem_cons.2 ⟨traces.annotated _ List.mem_cons_self, fun m member => ?_⟩
  obtain ⟨i, annotated⟩ := madeProgram_methods advances.finishes m (Array.mem_toList_iff.1 member)
  exact annotated

/-- All types in a program that a pass has made are known. -/
theorem madeProgram_known {V : Vocabulary} (known : s.Known cx V) (main : body.Known V) :
    ∀ m ∈ (madeProgram cx body s).allMethods, m.body.AllTypes (Ty.Known V) := by
  refine List.forall_mem_cons.2 ⟨main.inside, fun m member => ?_⟩
  rw [Array.mem_toList_iff, madeProgram, Array.mem_filterMap] at member
  obtain ⟨o, there, found⟩ := member
  exact known.methods o there m found

end Inference

namespace Compilation

open Inference

/-- In a compiled program in which only constants stand as receivers of calls that make objects or call
libraries, the annotations of calls and loops are exact. What ends an expanded call early has the merged
type of the breaks to its site and of the returns to its frame, wherever they stand in its body, and
there is no such type if there is no such exit. The call has the merged type of all its ends, and a
loop that of the breaks out of it, with nil unless it loops for ever. -/
theorem compiled_annotations_merged {options : Options} {text : String} {ds ds' : Diagnostics}
    {c : Compilation} (compiled : ofText options text ds = (.ok c, ds'))
    (plain : textPlainReceivers options text ds = true) :
    ∀ e, c.program.Within e → e.Merged := by
  rintro e ⟨m, member, inside⟩
  obtain ⟨bodies, compiled, plain⟩ := ofText_plain compiled plain
  obtain ⟨globals, constants, typed⟩ := ofBodies_typed compiled
  obtain ⟨Γ, typed⟩ := (typed.method member).body.inside inside
  have distinct := Typed.Program.points_nodup (ofBodies_exits compiled).1 member inside
  obtain ⟨cx, body, s, consistent, run, made, known, main, sound⟩ := ofBodies_plain compiled plain
  rw [made] at member
  have annotated := madeProgram_annotated consistent sound run m member e inside
  have types := madeProgram_known known main m member
  exact annotated.merged distinct (fun d there => types d (there.trans inside)) typed

/-- A loop in a block breaks out of itself and out of the call, and the method returns early. -/
def leavingText : String :=
  "def each(n)\n  yield n\n  return 2.5 if n > 1\n  'c'\nend\n" ++
    "x = each(3) do |k|\n  while true\n    break if k > 2\n    break\n  end\n" ++
    "  break \"s\" if k > 1\n  each(k) do |j|\n    break j if j > 2\n  end\nend\nx\n"

theorem leavingText_annotations_merged : ∃ c ds,
    ofText ⟨false, Limits.standard⟩ leavingText Diagnostics.empty = (.ok c, ds) ∧
      textPlainReceivers ⟨false, Limits.standard⟩ leavingText Diagnostics.empty = true ∧
      ∀ e, c.program.Within e → e.Merged := by
  have plain : textPlainReceivers ⟨false, Limits.standard⟩ leavingText Diagnostics.empty = true := by
    decide +kernel
  obtain ⟨c, ds, result⟩ := exists_compilation ⟨false, Limits.standard⟩ leavingText (by decide +kernel)
  exact ⟨c, ds, result, plain, compiled_annotations_merged result plain⟩

end Compilation

end TypedBlocks

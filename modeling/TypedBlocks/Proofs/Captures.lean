import TypedBlocks.Inference.Pass
import TypedBlocks.Proofs.CaptureWalk
import TypedBlocks.Proofs.Outcomes

/-!
# Captures

A variable that a block mentions is its parameter, its own, or captured, as soon as the block or a
scope around it has introduced the variable by then; and a captured variable is the variable of the
scope around the block. What counts is the order of evaluation: an assignment comes after its value,
and a statement after the condition behind it.
-/
namespace TypedBlocks

open Inference (BodyContext Origin)

/-- The name is exactly one of a parameter of the block, a variable of its own, and a capture. -/
def BlockScope.HasOnce (b : BlockScope) (n : String) : Prop :=
  (n ∈ b.parameters ∧ n ∉ b.locals ∧ ¬ b.Captures n) ∨
    (n ∉ b.parameters ∧ n ∈ b.locals ∧ ¬ b.Captures n) ∨
      (n ∉ b.parameters ∧ n ∉ b.locals ∧ b.Captures n)

/-- The scope is that of a block which captures the name. -/
def CaptureTable.CapturedBy (t : CaptureTable) (n : String) (l : LexicalScope) : Prop :=
  ∃ b scope, l.block = some b ∧ t.block? b.id = some scope ∧ scope.Captures n

namespace Inference.BodyContext

/-- A body is elaborated in the scopes around a place: each block inside the body that the next
scope stands for, up to the body of a method. -/
inductive Stands : BodyContext → List LexicalScope → Prop
  | method {a : BodyContext} {l : LexicalScope} (origin : ∀ id definer, a.origin ≠ .block id definer)
      (method : l.block = none) : Stands a [l]
  | block {a definer : BodyContext} {l : LexicalScope} {outer : List LexicalScope} {b : Block}
      (origin : a.origin = .block b.id definer) (block : l.block = some b)
      (rest : Stands definer outer) : Stands a (l :: outer)

theorem Stands.block_inv {a : BodyContext} {l : LexicalScope} {outer : List LexicalScope} {b : Block}
    (stands : a.Stands (l :: outer)) (block : l.block = some b) :
    ∃ definer, a.origin = .block b.id definer ∧ definer.Stands outer := by
  cases stands with
  | method _ method => cases method.symm.trans block
  | block origin same rest =>
    cases same.symm.trans block
    exact ⟨_, origin, rest⟩

/-- The body that is a number of blocks further out. -/
def outward : Nat → BodyContext → BodyContext
  | 0, a => a
  | k + 1, a =>
    match a.origin with
    | .block _ definer => definer.outward k
    | _ => a

theorem scopeOf_captured {t : CaptureTable} {n : String} {a definer : BodyContext} {id : NodeId}
    {b : BlockScope} (origin : a.origin = .block id definer) (found : t.block? id = some b)
    (captured : b.Captures n) (parameter : n ∉ b.parameters) (own : n ∉ b.locals) :
    (a.scopeOf t n).1 = (definer.scopeOf t n).1 := by
  obtain ⟨c, member, same⟩ := captured
  cases hit : b.capture? n with
  | none =>
    have missed := List.find?_eq_none.1 hit c member
    simp [same] at missed
  | some d =>
    cases a
    cases origin
    simp [scopeOf, found, hit, parameter, own]

theorem scopeOf_own {t : CaptureTable} {n : String} {a definer : BodyContext} {id : NodeId}
    {b : BlockScope} (origin : a.origin = .block id definer) (found : t.block? id = some b)
    (free : ¬ b.Captures n) : (a.scopeOf t n).1 = a.path := by
  have missed : b.capture? n = none := by
    refine List.find?_eq_none.2 fun c member same => free ⟨c, member, ?_⟩
    exact beq_iff_eq.1 same
  cases a
  cases origin
  simp [scopeOf, found, missed]

end Inference.BodyContext

/-- How a name that a block mentions is resolved in the block. -/
structure Resolution (t : CaptureTable) (p : BlockPlace) (n : String) (b : BlockScope) : Prop where
  found : t.block? p.block.id = some b
  parameters : b.parameters = p.block.names
  /-- The block has the name once if and only if it has been introduced by then. -/
  once : b.HasOnce n ↔ n ∈ p.block.names ∨ n ∈ listAssigns p.block.body ∨ Visible p.around n
  captured : n ∉ p.block.names → (b.Captures n ↔ Visible p.around n)
  /-- All blocks inside the innermost scope that has introduced the name capture it, and so the name
  means inside the block what it means there. -/
  outer : n ∉ p.block.names → ∀ inner owner outer, p.around = inner ++ owner :: outer →
    owner.Introduces n → (∀ l ∈ inner, ¬ l.Introduces n) →
      (∀ l ∈ inner, t.CapturedBy n l) ∧
        ∀ a : BodyContext, a.Stands (.ofBlock p.block :: p.around) →
          (a.scopeOf t n).1 = ((a.outward (inner.length + 1)).scopeOf t n).1
  /-- A name that is not visible around the block means a variable of the block. -/
  own : ¬ Visible p.around n → ∀ a : BodyContext, a.Stands (.ofBlock p.block :: p.around) →
    (a.scopeOf t n).1 = a.path

theorem mem_blockMentions {b : Block} {n : String} :
    n ∈ blockMentions (some b) ↔ n ∈ listMentions b.body ∧ n ∉ b.names := by
  cases b
  simp [blockMentions, Block.names]

section Program

variable {bodies : List (List Expr)} (distinct : (listIds bodies.flatten).Nodup) {n : String}
include distinct

/-- A block captures what it mentions and what is visible around it, and so the name means the same
inside the block as around it. -/
theorem captured_visible {p : BlockPlace} (place : p ∈ programPlaces bodies)
    (mentioned : n ∈ listMentions p.block.body) (other : n ∉ p.block.names)
    (visible : Visible p.around n) :
    ∃ b, (bindBlocks bodies).block? p.block.id = some b ∧ b.Captures n ∧
      ∀ a definer : BodyContext, a.origin = .block p.block.id definer →
        (a.scopeOf (bindBlocks bodies) n).1 = (definer.scopeOf (bindBlocks bodies) n).1 := by
  obtain ⟨b, found, describes⟩ := bindBlocks_describes distinct place
  have captured : b.Captures n := (describes.captures n).2 ⟨other, mentioned, visible⟩
  have foreign : n ∉ b.locals := fun own => ((describes.locals n).1 own).2.2 visible
  have parameter : n ∉ b.parameters := describes.parameters ▸ other
  exact ⟨b, found, captured, fun a definer origin =>
    BodyContext.scopeOf_captured origin found captured parameter foreign⟩

/-- A name goes out through all blocks up to the scope that has introduced it. -/
theorem captured_outward {p : BlockPlace} (place : p ∈ programPlaces bodies)
    (mentioned : n ∈ listMentions p.block.body) (other : n ∉ p.block.names)
    {inner : List LexicalScope} {owner : LexicalScope} {outer : List LexicalScope}
    (around : p.around = inner ++ owner :: outer) (introduces : owner.Introduces n)
    (silent : ∀ l ∈ inner, ¬ l.Introduces n) :
    (∀ l ∈ inner, (bindBlocks bodies).CapturedBy n l) ∧
      ∀ a : BodyContext, a.Stands (.ofBlock p.block :: p.around) →
        (a.scopeOf (bindBlocks bodies) n).1 =
          ((a.outward (inner.length + 1)).scopeOf (bindBlocks bodies) n).1 := by
  induction inner generalizing p with
  | nil =>
    have visible : Visible p.around n := ⟨owner, by simp [around], introduces⟩
    obtain ⟨-, -, -, outwards⟩ := captured_visible distinct place mentioned other visible
    refine ⟨nofun, fun a stands => ?_⟩
    obtain ⟨definer, origin, -⟩ := stands.block_inv rfl
    rw [outwards a definer origin]
    simp only [List.length_nil, BodyContext.outward, origin]
  | cons l inner ih =>
    have visible : Visible p.around n := ⟨owner, by simp [around], introduces⟩
    obtain ⟨-, -, -, outwards⟩ := captured_visible distinct place mentioned other visible
    obtain ⟨method, block⟩ := programPlaces_inside place l _ around
    cases standing : l.block with
    | none => exact absurd (method standing) (by simp)
    | some c =>
      obtain ⟨next, same, inside⟩ := block c standing
      have here : n ∉ c.names := fun parameter =>
        silent l List.mem_cons_self (.inl (same ▸ parameter))
      have passed : n ∈ listMentions c.body := inside n (mem_blockMentions.2 ⟨mentioned, other⟩)
      obtain ⟨d, found, captured, -⟩ :=
        captured_visible distinct next passed here ⟨owner, by simp, introduces⟩
      obtain ⟨rest, slots⟩ := ih next passed here rfl
        fun k member => silent k (List.mem_cons_of_mem _ member)
      refine ⟨fun k member => ?_, fun a stands => ?_⟩
      · rcases List.mem_cons.1 member with rfl | member
        · exact ⟨c, d, standing, found, captured⟩
        · exact rest k member
      · obtain ⟨definer, origin, stands⟩ := stands.block_inv rfl
        rw [around] at stands
        obtain ⟨further, around_block, stands⟩ := stands.block_inv standing
        rw [outwards a definer origin, slots definer (.block around_block rfl stands)]
        simp only [List.length_cons, BodyContext.outward, origin]

/-- In a program whose nodes have numbers of their own, every name is resolved by what has been
introduced before it in the order of evaluation. -/
theorem bindBlocks_resolution {p : BlockPlace} (place : p ∈ programPlaces bodies)
    (mentioned : n ∈ listMentions p.block.body) :
    ∃ b, Resolution (bindBlocks bodies) p n b := by
  obtain ⟨b, found, describes⟩ := bindBlocks_describes distinct place
  refine ⟨b, found, describes.parameters, ?_, fun other => ?_, fun other => ?_, fun unseen => ?_⟩
  · unfold BlockScope.HasOnce
    rw [describes.parameters, describes.locals, describes.captures]
    tauto
  · rw [describes.captures]
    exact ⟨fun captured => captured.2.2, fun visible => ⟨other, mentioned, visible⟩⟩
  · intro inner owner outer around introduces silent
    exact captured_outward distinct place mentioned other around introduces silent
  · intro a stands
    obtain ⟨definer, origin, -⟩ := stands.block_inv rfl
    exact BodyContext.scopeOf_own origin found fun captured =>
      unseen ((describes.captures n).1 captured).2.2

end Program

namespace Module

/-- In all texts that can be read, a block has every name that it mentions in exactly one of its
lists if and only if the name is a parameter of it, is assigned in it, or has been introduced around
it before it in the order of evaluation. In the last case it is captured out to the scope that has
introduced it and means the variable there; else it means a variable of the block, also where the
text has an assignment to an outer variable before the block that takes effect after it. -/
theorem captures_follow_evaluation {first next : NodeId} {texts : List String} {ms : List Module}
    (read : readAll first texts = .ok (ms, next)) {p : BlockPlace}
    (place : p ∈ programPlaces (ms.map (·.body))) {n : String}
    (mentioned : n ∈ listMentions p.block.body) :
    ∃ b, Resolution (bindBlocks (ms.map (·.body))) p n b := by
  obtain ⟨distinct, -⟩ := readAll_ids read
  exact bindBlocks_resolution distinct place mentioned

/-- A block in a block, both with a use of a variable of the top level. -/
def nestedText : String := "def foo\n  yield 1\nend\nx = 1\nfoo do |y|\n  foo { x = y }\nend\n"

theorem nestedText_captures_follow_evaluation : ∃ ms next p b,
    readAll ⟨0⟩ [nestedText] = .ok (ms, next) ∧ p ∈ programPlaces (ms.map (·.body)) ∧
      "x" ∈ listMentions p.block.body ∧
        Resolution (bindBlocks (ms.map (·.body))) p "x" b := by
  obtain ⟨⟨ms, next⟩, read, holds⟩ := exists_value (readAll ⟨0⟩ [nestedText])
    (fun r => (programPlaces (r.1.map (·.body))).any fun p =>
      (listMentions p.block.body).contains "x") (by decide +kernel)
  obtain ⟨p, place, mentioned⟩ := List.any_eq_true.1 holds
  rw [List.contains_iff_mem] at mentioned
  obtain ⟨b, resolution⟩ := captures_follow_evaluation read place mentioned
  exact ⟨ms, next, p, b, read, place, mentioned, resolution⟩

end Module

end TypedBlocks

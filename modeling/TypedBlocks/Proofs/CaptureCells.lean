import TypedBlocks.Proofs.Captures
import TypedBlocks.Proofs.CellMarks

/-!
# Cells of captured variables

A captured variable needs a cell as soon as its block assigns it or its method assigns it later: after
the block in the text, or in a loop that has the block in its body. A block in the condition of a loop
misses one case: what is assigned earlier in the same condition takes effect again in the next round,
yet is not taken to come later.
-/
namespace TypedBlocks

theorem bodySpans_mem {loops : List LoopAround} {l : LoopAround} (around : l ∈ loops)
    (inBody : l.inBody = true) : l.span ∈ bodySpans loops :=
  List.mem_map_of_mem (List.mem_filter.2 ⟨around, inBody⟩)

/-- The loops around a block cover what is assigned in them, but for what stands with the block in the
condition and not after it. -/
theorem BlockSite.Held.changesAfter {site : BlockSite} (held : site.Held) {l : LoopAround}
    (around : l ∈ site.loops) {n : String} {span : Span} (assigned : (n, span) ∈ l.targets)
    (covered : l.inBody = true ∨ (n, span) ∈ listTargets l.body ∨
      span.isAfter site.block.span = true) : site.ChangesAfter n := by
  have holds := held.loops l around
  refine ⟨span, holds.method _ assigned, ?_⟩
  by_cases inBody : l.inBody = true
  · exact .inr ⟨l.span, bodySpans_mem around inBody, holds.inside _ assigned⟩
  · rcases covered.resolve_left inBody with later | later
    · exact .inl (holds.after (Bool.eq_false_iff.2 inBody) _ later)
    · exact .inl later

/-- What a block mentions is mentioned by all blocks around it that have no parameter of the name,
nor a block between with one. -/
theorem mentioned_outward {bodies : List (List Expr)} {n : String} {p : BlockPlace}
    (place : p ∈ programPlaces bodies) (mentioned : n ∈ blockMentions (some p.block))
    {inner outer : List LexicalScope} {l : LexicalScope} (around : p.around = inner ++ l :: outer)
    (free : ∀ k ∈ inner, n ∉ k.parameters) {b : Block} (block : l.block = some b) :
    ⟨b, outer⟩ ∈ programPlaces bodies ∧ l.parameters = b.names ∧ n ∈ listMentions b.body := by
  induction inner generalizing p with
  | nil =>
    obtain ⟨-, inside⟩ := programPlaces_inside place l outer around
    obtain ⟨next, parameters, mentions⟩ := inside b block
    exact ⟨next, parameters, mentions n mentioned⟩
  | cons k inner ih =>
    rw [List.forall_mem_cons] at free
    obtain ⟨method, inside⟩ := programPlaces_inside place k _ around
    cases standing : k.block with
    | none => exact absurd (method standing) (by simp)
    | some d =>
      obtain ⟨next, parameters, mentions⟩ := inside d standing
      exact ih next (mem_blockMentions.2 ⟨mentions n mentioned, parameters ▸ free.1⟩) rfl free.2

/-- Which captures of a block need a cell. -/
structure Cells (t : CaptureTable) (site : BlockSite) (b : BlockScope) : Prop where
  found : t.block? site.block.id = some b
  inside : ∀ c ∈ b.captures, c.mutatedInside = true ↔ c.name ∈ listWrites site.block.body
  /-- A captured variable needs a cell if and only if its block assigns it or its method assigns it
  later. -/
  cell : ∀ c ∈ b.captures,
    c.needsCell = true ↔ c.name ∈ listWrites site.block.body ∨ site.ChangesAfter c.name
  /-- What is assigned in a loop around the block is covered, in the condition and in the body, unless
  the block stands in the condition too and not before the assignment. -/
  loops : ∀ c ∈ b.captures, ∀ l ∈ site.loops, ∀ span, (c.name, span) ∈ l.targets →
    (l.inBody = true ∨ (c.name, span) ∈ listTargets l.body ∨ span.isAfter site.block.span = true) →
      c.needsCell = true
  /-- A variable from outside a block further out is captured there too, and marked if it is here. -/
  outward : ∀ c ∈ b.captures, ∀ inner l outer, site.around = inner ++ l :: outer →
    ∀ d, l.block = some d → Visible outer c.name → (∀ k ∈ inner ++ [l], c.name ∉ k.parameters) →
      ∃ scope, t.block? d.id = some scope ∧ ∃ c' ∈ scope.captures, c'.name = c.name ∧
        (c.mutatedInside = true → c'.mutatedInside = true)

section Program

variable {bodies : List (List Expr)} (distinct : (listIds bodies.flatten).Nodup)
include distinct

/-- The table accounts for every block at its site. -/
theorem block?_accounts {site : BlockSite} (member : site ∈ programSites bodies) :
    ∃ b, (bindBlocks bodies).block? site.block.id = some b ∧ b.Accounts site ∧
      b.Describes site.toBlockPlace := by
  obtain ⟨b, found, describes⟩ := bindBlocks_describes distinct (mem_programPlaces member)
  obtain ⟨home, place, accounts⟩ := bindBlocks_accounts b (List.mem_of_find?_eq_some found)
  have same := site_unique distinct place member (accounts.block.symm.trans describes.block)
  exact ⟨b, found, same ▸ accounts, describes⟩

/-- A captured variable is captured by the blocks around as well, and what the block assigns they
assign. -/
theorem captured_marks_outward {site : BlockSite} (member : site ∈ programSites bodies)
    (held : site.Held) {n : String} (captured : n ∉ site.block.names ∧ n ∈ listMentions site.block.body)
    {inner outer : List LexicalScope} {l : LexicalScope} (around : site.around = inner ++ l :: outer)
    {d : Block} (block : l.block = some d) (visible : Visible outer n)
    (free : ∀ k ∈ inner ++ [l], n ∉ k.parameters) :
    ∃ scope, (bindBlocks bodies).block? d.id = some scope ∧ ∃ c ∈ scope.captures, c.name = n ∧
      (n ∈ listWrites site.block.body → c.mutatedInside = true) := by
  rw [List.forall_mem_append, List.forall_mem_singleton] at free
  obtain ⟨place, parameters, mentioned⟩ := mentioned_outward (mem_programPlaces member)
    (mem_blockMentions.2 captured.symm) around free.1 block
  obtain ⟨further, standing, same⟩ : ∃ further ∈ programSites bodies,
      further.toBlockPlace = ⟨d, outer⟩ := by
    rw [programPlaces, ← listSites_places ⟨[], bodies.flatten⟩] at place
    exact List.mem_map.1 place
  obtain ⟨scope, found, accounts, describes⟩ := block?_accounts distinct standing
  have here : further.block = d := congrArg BlockPlace.block same
  rw [same] at describes
  obtain ⟨c, capture, rfl⟩ := (describes.captures n).2 ⟨parameters ▸ free.2, mentioned, visible⟩
  refine ⟨scope, here ▸ found, c, capture, rfl, fun assigned => ?_⟩
  rw [accounts.inside c capture, here]
  refine held.blocks inner l outer around d block c.name ?_ free.1
  rcases site with ⟨⟨⟨id, span, names, body⟩, scopes⟩, surroundings⟩
  refine List.mem_filter.2 ⟨assigned, ?_⟩
  rw [Bool.not_eq_true', ← Bool.not_eq_true, List.contains_iff_mem]
  exact captured.1

/-- In a program with nested spans whose nodes have numbers of their own, the cells cover what is
assigned later. -/
theorem bindBlocks_cells {site : BlockSite} (member : site ∈ programSites bodies)
    (held : site.Held) : ∃ b, Cells (bindBlocks bodies) site b := by
  obtain ⟨b, found, accounts, describes⟩ := block?_accounts distinct member
  have cell : ∀ c ∈ b.captures,
      c.needsCell = true ↔ c.name ∈ listWrites site.block.body ∨ site.ChangesAfter c.name := by
    intro c capture
    rw [Capture.needsCell, Bool.or_eq_true, accounts.inside c capture, accounts.after c capture]
  refine ⟨b, found, accounts.inside, cell, ?_, ?_⟩
  · intro c capture l around span assigned covered
    exact (cell c capture).2 (.inr (held.changesAfter around assigned covered))
  · intro c capture inner l outer around d block visible free
    obtain ⟨other, mentioned, -⟩ := (describes.captures c.name).1 ⟨c, capture, rfl⟩
    rw [accounts.inside c capture]
    exact captured_marks_outward distinct member held ⟨other, mentioned⟩ around block visible free

end Program

namespace Module

/-- In all texts that can be read, a captured variable of a block needs a cell if and only if the block
assigns it, or its method assigns it after the block in the text or in a loop with the block in its
body; so for every loop around a block, the cells cover all assignments in the loop, but for those that
stand with the block in its condition and not after it. A variable that a block captures from further
out is captured by the blocks between, and marked as assigned there if it is in the block. -/
theorem cells_cover_mutations {first next : NodeId} {texts : List String} {ms : List Module}
    (read : readAll first texts = .ok (ms, next)) {site : BlockSite}
    (member : site ∈ programSites (ms.map (·.body))) :
    ∃ b, Cells (bindBlocks (ms.map (·.body))) site b := by
  obtain ⟨distinct, -⟩ := readAll_ids read
  refine bindBlocks_cells distinct member
    (programSites_held (fun body given e statement => ?_) site member)
  obtain ⟨m, module, rfl⟩ := List.mem_map.1 given
  exact readAll_nested read m module e statement

/-- A block in a block in a loop, with assignments in the block and in the loop. -/
def loopText : String :=
  "def foo\n  yield\nend\nx = 0\ny = 0\nwhile x < 3\n  foo { foo { y = x } }\n  x = x + 1\nend\n"

theorem loopText_cells_cover_mutations : ∃ ms next site b,
    readAll ⟨0⟩ [loopText] = .ok (ms, next) ∧ site ∈ programSites (ms.map (·.body)) ∧
      site.loops.length = 1 ∧ site.around.length = 2 ∧
        Cells (bindBlocks (ms.map (·.body))) site b := by
  obtain ⟨⟨ms, next⟩, read, holds⟩ := exists_value (readAll ⟨0⟩ [loopText])
    (fun r => (programSites (r.1.map (·.body))).any fun site =>
      site.loops.length == 1 && site.around.length == 2) (by decide +kernel)
  obtain ⟨site, member, stands⟩ := List.any_eq_true.1 holds
  rw [Bool.and_eq_true, beq_iff_eq, beq_iff_eq] at stands
  obtain ⟨b, cells⟩ := cells_cover_mutations read member
  exact ⟨ms, next, site, b, read, member, stands.1, stands.2, cells⟩

/-- The condition assigns the variable again in the next round, yet the block has no cell for it. -/
example : (match readAll ⟨0⟩ ["x = 0\nwhile (x = x + 1) < 3 && foo { x }\nend"] with
    | .ok (ms, _) => (bindBlocks (ms.map (·.body))).entries.map (·.captures)
    | .error _ => []) = [[⟨"x", false, false⟩]] := by decide +kernel

end Module

end TypedBlocks

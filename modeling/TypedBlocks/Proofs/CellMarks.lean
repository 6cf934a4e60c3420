import TypedBlocks.Proofs.BlockSites
import TypedBlocks.Proofs.CaptureWalk

/-!
# Marked captures

The walk marks a capture of a block once the block assigns the variable, and keeps all assignments of
the method and the loops around every block. So what it has found when it is over accounts for every
block at its site.
-/
namespace TypedBlocks

/-- What is known of a block before its method is over: a capture is marked exactly if the block
assigns it. -/
structure BlockScope.Marks (b : BlockScope) (site : BlockSite) : Prop where
  block : b.block = site.block.id
  span : b.span = site.block.span
  inside : ∀ c ∈ b.captures, c.mutatedInside = true ↔ c.name ∈ listWrites site.block.body

/-- The method assigns the variable where this can take effect when the block has been made: after
the block in the text, or in the span of a loop with the block in its body. -/
def BlockSite.ChangesAfter (site : BlockSite) (n : String) : Prop :=
  ∃ span, (n, span) ∈ listTargets site.method ∧
    (span.isAfter site.block.span = true ∨ ∃ l ∈ bodySpans site.loops, l.contains span = true)

/-- What is known of a block in the end. -/
structure BlockScope.Accounts (b : BlockScope) (site : BlockSite) : Prop extends b.Marks site where
  after : ∀ c ∈ b.captures, c.mutatedAfter = true ↔ site.ChangesAfter c.name

/-- The captures have names of their own, and are marked exactly if these are among those given. -/
structure MarkedBy (captures : List Capture) (sets : List String) : Prop where
  distinct : captures.Pairwise (·.name ≠ ·.name)
  marked : ∀ c ∈ captures, c.mutatedInside = true ↔ c.name ∈ sets

/-- The names that a use assigns. -/
def assignedBy (mutated : Bool) (name : String) : List String := if mutated then [name] else []

theorem mem_assignedBy {mutated : Bool} {name n : String} :
    n ∈ assignedBy mutated name ↔ mutated = true ∧ n = name := by
  unfold assignedBy
  split <;> simp [*]

theorem name_recordCapture {captures : List Capture} {name : String} {mutated : Bool} {c : Capture}
    (member : c ∈ BlockScope.recordCapture name mutated captures) :
    c.name = name ∨ ∃ d ∈ captures, d.name = c.name := by
  induction captures with
  | nil => exact .inl (List.mem_singleton.1 member ▸ rfl)
  | cons d captures ih =>
    rw [BlockScope.recordCapture] at member
    split at member
    · rcases List.mem_cons.1 member with rfl | rest
      · exact .inr ⟨d, List.mem_cons_self, rfl⟩
      · exact .inr ⟨c, List.mem_cons_of_mem _ rest, rfl⟩
    · rcases List.mem_cons.1 member with rfl | rest
      · exact .inr ⟨c, List.mem_cons_self, rfl⟩
      · refine (ih rest).imp_right ?_
        rintro ⟨e, inner, same⟩
        exact ⟨e, List.mem_cons_of_mem _ inner, same⟩

namespace MarkedBy

variable {captures : List Capture} {sets : List String}

theorem nil : MarkedBy [] sets := ⟨.nil, List.forall_mem_nil _⟩

/-- Names that are not captured do not matter. -/
theorem other {names : List String} (marked : MarkedBy captures sets)
    (other : ∀ c ∈ captures, c.name ∉ names) : MarkedBy captures (sets ++ names) := by
  refine ⟨marked.distinct, fun c member => ?_⟩
  rw [marked.marked c member, List.mem_append]
  exact (or_iff_left (other c member)).symm

/-- A use marks the capture that it finds or makes if it assigns the variable. -/
theorem record {name : String} {mutated : Bool} (marked : MarkedBy captures sets)
    (fresh : (∀ c ∈ captures, c.name ≠ name) → name ∉ sets) :
    MarkedBy (BlockScope.recordCapture name mutated captures) (sets ++ assignedBy mutated name) := by
  obtain ⟨distinct, marked⟩ := marked
  induction captures with
  | nil =>
    refine ⟨List.pairwise_singleton _ _, List.forall_mem_singleton.2 ?_⟩
    have unset := fresh (List.forall_mem_nil _)
    simp [mem_assignedBy, unset]
  | cons d captures ih =>
    obtain ⟨apart, distinct⟩ := List.pairwise_cons.1 distinct
    rw [List.forall_mem_cons] at marked
    rw [BlockScope.recordCapture]
    split
    · rename_i same
      rw [beq_iff_eq] at same
      subst name
      refine ⟨List.pairwise_cons.2 ⟨apart, distinct⟩, List.forall_mem_cons.2 ⟨?_, fun c member => ?_⟩⟩
      · rw [Bool.or_eq_true, marked.1, List.mem_append, mem_assignedBy]
        simp
      · rw [marked.2 c member, List.mem_append, mem_assignedBy]
        simp [(apart c member).symm]
    · rename_i other
      rw [beq_iff_eq] at other
      obtain ⟨distinct, rest⟩ := ih (fun away => fresh (List.forall_mem_cons.2 ⟨other, away⟩))
        distinct marked.2
      refine ⟨List.pairwise_cons.2 ⟨fun c member same => ?_, distinct⟩,
        List.forall_mem_cons.2 ⟨?_, rest⟩⟩
      · rcases name_recordCapture member with named | ⟨e, inner, named⟩
        · exact other (same.trans named)
        · exact apart e inner (same.trans named.symm)
      · rw [marked.1, List.mem_append, mem_assignedBy]
        simp [other]

end MarkedBy

/-- The captures of the open blocks are marked as the names tell that have been assigned in each so
far, which are among those mentioned. -/
inductive Marked : List OpenScope → Trail → Trail → Prop
  | body {names mentioned sets : List String} {l : LexicalScope}
      (fewer : sets ⊆ mentioned) :
      Marked [⟨names, none⟩] [(l, mentioned)] [(l, sets)]
  | block {scopes : List OpenScope} {trail marks : Trail} {names mentioned sets : List String}
      {scope : BlockScope} {l : LexicalScope} (outer : Marked scopes trail marks)
      (fewer : sets ⊆ mentioned) (marked : MarkedBy scope.captures sets) :
      Marked (⟨names, some scope⟩ :: scopes) ((l, mentioned) :: trail) ((l, sets) :: marks)

theorem append_fewer {sets mentioned names more : List String} (fewer : sets ⊆ mentioned)
    (within : names ⊆ more) : sets ++ names ⊆ mentioned ++ more :=
  List.append_subset_of_subset_of_subset (List.subset_append_of_subset_left _ fewer)
    (List.subset_append_of_subset_right _ within)

namespace Marked

variable {scopes scopes' : List OpenScope} {trail marks : Trail}

theorem assign (marked : Marked scopes trail marks) (names : List String) :
    Marked scopes (trail.assign names) (marks.assign names) := by
  cases marked with
  | body fewer => exact .body fewer
  | block outer fewer marked => exact .block outer fewer marked

theorem declareInnermost (marked : Marked scopes trail marks) (name : String) :
    Marked (CaptureState.declareInnermost name scopes) trail marks := by
  cases marked with
  | body fewer => exact .body fewer
  | block outer fewer marked => exact .block outer fewer marked

theorem self (marked : Marked scopes trail marks) : Marked (recordSelf scopes) trail marks := by
  induction marked with
  | body fewer => exact .body fewer
  | block outer fewer marked ih => exact .block ih fewer marked

/-- What no scope has introduced is captured by no block. -/
theorem unseen (marked : Marked scopes trail marks) (reflects : Reflects scopes trail)
    {sets mentioned : List String} (fewer : sets ⊆ mentioned)
    (unseen : ∀ n ∈ sets, ¬ Visible trail.scopes n) :
    Marked scopes (trail.mention mentioned) (marks.mention sets) := by
  induction reflects generalizing marks sets mentioned with
  | body owned =>
    obtain ⟨before⟩ := marked
    exact .body (append_fewer before fewer)
  | @block scopes trail _ _ _ scope b outer same owned captured ih =>
    obtain _ | ⟨inner, before, marked⟩ := marked
    have unseen_outer : ∀ n ∈ sets, ¬ Visible trail.scopes n := fun n member visible =>
      unseen n member (visible_cons.2 (.inr visible))
    refine .block (ih inner (List.filter_subset _ fewer) fun n member => ?_)
      (append_fewer before fewer) (marked.other fun c member assigned => ?_)
    · exact unseen_outer n (List.mem_filter.1 member).1
    · exact unseen_outer c.name assigned ((captured c.name).1 ⟨c, member, rfl⟩).2.2

theorem use (marked : Marked scopes trail marks) (reflects : Reflects scopes trail) {name : String}
    {mutated : Bool} (found : recordUse? name mutated scopes = some scopes') :
    Marked scopes' (trail.mention [name]) (marks.mention (assignedBy mutated name)) := by
  have fewer : assignedBy mutated name ⊆ [name] := fun n member =>
    List.mem_singleton.2 (mem_assignedBy.1 member).2
  induction reflects generalizing marks scopes' with
  | body owned =>
    obtain ⟨before⟩ := marked
    unfold recordUse? at found
    split at found
    · cases found
      exact .body (append_fewer before fewer)
    · cases found
  | @block scopes trail names assigned mentioned scope b outer same owned captured ih =>
    obtain _ | ⟨inner, before, marked⟩ := marked
    unfold recordUse? at found
    split at found
    · rename_i own
      cases found
      have introduced := (owned name).1 (List.contains_iff_mem.1 own)
      refine .block (inner.unseen outer (List.filter_subset _ fewer) fun n member visible => ?_)
        (append_fewer before fewer) (marked.other fun c member assigned => ?_)
      · obtain ⟨found, other⟩ := List.mem_filter.1 member
        have named := (mem_assignedBy.1 found).2
        subst n
        exact (introduced.resolve_left (by simpa using other)).2 visible
      · obtain ⟨other, -, visible⟩ := (captured c.name).1 ⟨c, member, rfl⟩
        rw [(mem_assignedBy.1 assigned).2] at other visible
        exact (introduced.resolve_left other).2 visible
    · rename_i own
      have other : name ∉ b.names := fun parameter =>
        own (List.contains_iff_mem.2 ((owned name).2 (.inl parameter)))
      have outwards : ∀ more : List String, more ⊆ [name] →
          more.filter (fun n => !b.names.contains n) = more := by
        intro more within
        refine List.filter_eq_self.2 fun n member => ?_
        rw [List.mem_singleton.1 (within member)]
        simpa using other
      rw [if_neg (by simp), Option.map_eq_some_iff] at found
      obtain ⟨rest, found, rfl⟩ := found
      have visible : Visible trail.scopes name := by
        rcases outer.use name mutated with ⟨-, missing⟩ | ⟨visible, -⟩
        · cases missing.symm.trans found
        · exact visible
      rw [Trail.mention, Trail.mention, outwards _ fewer, outwards _ (List.Subset.refl _)]
      refine .block (ih inner found) (append_fewer before fewer) (marked.record fun away set => ?_)
      obtain ⟨c, member, named⟩ := (captured name).2 ⟨other, before set, visible⟩
      exact away c member named

theorem getD_use (marked : Marked scopes trail marks) (reflects : Reflects scopes trail)
    (name : String) :
    Marked ((recordUse? name false scopes).getD scopes) (trail.mention [name]) (marks.mention []) := by
  cases found : recordUse? name false scopes with
  | none => exact marked.unseen reflects (List.nil_subset _) (List.forall_mem_nil _)
  | some scopes' => exact marked.use reflects found

theorem getD_assign (marked : Marked scopes trail marks) (reflects : Reflects scopes trail)
    (name : String) :
    Marked ((recordUse? name true scopes).getD (CaptureState.declareInnermost name scopes))
      (trail.advance [name] [name]) (marks.advance [name] [name]) := by
  refine assign ?_ _
  rcases reflects.use name true with ⟨unseen, missing⟩ | ⟨-, scopes', found, -⟩
  · rw [missing]
    refine (marked.unseen reflects (List.Subset.refl _) fun n member => ?_).declareInnermost name
    exact List.mem_singleton.1 member ▸ unseen
  · rw [found]
    exact marked.use reflects found

end Marked

namespace CaptureState

/-- A walk has come to a place between loops and scopes. -/
structure At (s : CaptureState) (spans : List Span) (trail marks : Trail) : Prop where
  loops : s.loops = spans
  reflects : Reflects s.scopes trail
  marked : Marked s.scopes trail marks

/-- A walk over something that stands at a place in the method: it keeps its assignments, and what is
added for each block in it tells of the site of the block. -/
structure Leaves (s : CaptureState) (method : List Expr) (spans : List Span) (trail marks : Trail)
    (assigned mentioned sets : List String) (targets : List (String × Span)) (sites : List BlockSite)
    (r : CaptureState) : Prop where
  place : r.At spans (trail.advance assigned mentioned) (marks.advance assigned sets)
  assignments : ∀ t, t ∈ r.assignments ↔ t ∈ s.assignments ∨ t ∈ targets
  pending : ∀ q ∈ r.pending, q ∈ s.pending ∨
    ∃ site ∈ sites, site.method = method ∧ q.1.Marks site ∧ q.2 = bodySpans site.loops
  finished : ∀ b ∈ r.finished, b ∈ s.finished ∨ ∃ site ∈ sites, b.Accounts site

section Walk

variable {s mid r : CaptureState} {method : List Expr} {spans : List Span} {trail marks : Trail}
  {assigned mentioned sets assigned' mentioned' sets' : List String}
  {targets targets' : List (String × Span)} {sites sites' : List BlockSite}

theorem Leaves.refl (place : s.At spans trail marks) :
    s.Leaves method spans trail marks [] [] [] [] [] s := by
  refine ⟨?_, fun t => ?_, fun _ => .inl, fun _ => .inl⟩
  · rwa [Trail.advance_nil, Trail.advance_nil]
  · rw [or_iff_left List.not_mem_nil]

theorem Leaves.trans
    (first : s.Leaves method spans trail marks assigned mentioned sets targets sites mid)
    (rest : mid.Leaves method spans (trail.advance assigned mentioned) (marks.advance assigned sets)
      assigned' mentioned' sets' targets' sites' r) :
    s.Leaves method spans trail marks (assigned ++ assigned') (mentioned ++ mentioned')
      (sets ++ sets') (targets ++ targets') (sites ++ sites') r := by
  refine ⟨?_, fun t => ?_, fun q member => ?_, fun b member => ?_⟩
  · rw [← Trail.advance_advance, ← Trail.advance_advance]
    exact rest.place
  · rw [rest.assignments, first.assignments, List.mem_append, or_assoc]
  · rcases rest.pending q member with earlier | ⟨site, inside, told⟩
    · rcases first.pending q earlier with known | ⟨site, inside, told⟩
      · exact .inl known
      · exact .inr ⟨site, List.mem_append_left _ inside, told⟩
    · exact .inr ⟨site, List.mem_append_right _ inside, told⟩
  · rcases rest.finished b member with earlier | ⟨site, inside, told⟩
    · rcases first.finished b earlier with known | ⟨site, inside, told⟩
      · exact .inl known
      · exact .inr ⟨site, List.mem_append_left _ inside, told⟩
    · exact .inr ⟨site, List.mem_append_right _ inside, told⟩

theorem At.enterLoop (place : s.At spans trail marks) (span : Span) :
    (s.enterLoop span).At (span :: spans) trail marks :=
  ⟨congrArg (span :: ·) place.loops, place.reflects, place.marked⟩

theorem Leaves.inLoop {span : Span}
    (inside : (s.enterLoop span).Leaves method (span :: spans) trail marks assigned mentioned sets
      targets sites r) :
    s.Leaves method spans trail marks assigned mentioned sets targets sites r.leaveLoop := by
  refine ⟨⟨?_, inside.place.reflects, inside.place.marked⟩, inside.assignments, inside.pending,
    inside.finished⟩
  rw [leaveLoop, inside.place.loops, List.drop_one, List.tail_cons]

theorem use_leaves (place : s.At spans trail marks) (name : String) :
    s.Leaves method spans trail marks [] [name] [] [] [] (s.use name) := by
  refine ⟨⟨place.loops, (use_passes place.reflects name).scopes, ?_⟩, fun t => ?_, fun _ => .inl,
    fun _ => .inl⟩
  · exact (place.marked.getD_use place.reflects name).assign []
  · exact (or_iff_left List.not_mem_nil).symm

theorem useSelf_leaves (place : s.At spans trail marks) :
    s.Leaves method spans trail marks [] [] [] [] [] s.useSelf := by
  refine ⟨⟨place.loops, (useSelf_passes place.reflects).scopes, ?_⟩, fun t => ?_, fun _ => .inl,
    fun _ => .inl⟩
  · rw [Trail.advance_nil, Trail.advance_nil]
    exact place.marked.self
  · exact (or_iff_left List.not_mem_nil).symm

theorem assignLocal_leaves (place : s.At spans trail marks) (name : String) (span : Span) :
    s.Leaves method spans trail marks [name] [name] [name] [(name, span)] []
      (s.assignLocal name span) :=
  ⟨⟨place.loops, (assignLocal_passes place.reflects name span).scopes,
    place.marked.getD_assign place.reflects name⟩, fun _ => List.mem_append, fun _ => .inl,
    fun _ => .inl⟩

theorem At.enterBlock (place : s.At spans trail marks) (b : Block) :
    (s.enterBlock b.id b.span b.names).At spans ((LexicalScope.ofBlock b, []) :: trail)
      ((LexicalScope.ofBlock b, []) :: marks) :=
  ⟨place.loops, enterBlock_reflects place.reflects b,
    .block place.marked (List.nil_subset _) .nil⟩

/-- A block that is over waits for the end of its method with its captures marked. -/
theorem leaveBlock_leaves {c : Surroundings} {b : Block}
    (body : (s.enterBlock b.id b.span b.names).Leaves c.method (bodySpans c.loops)
      ((LexicalScope.ofBlock b, []) :: trail) ((LexicalScope.ofBlock b, []) :: marks)
      (listAssigns b.body) (listMentions b.body) (listWrites b.body) (listTargets b.body)
      (listSites c (LexicalScope.ofBlock b :: trail.scopes) b.body) r) :
    s.Leaves c.method (bodySpans c.loops) trail marks [] (blockMentions (some b))
      (blockWrites (some b)) (blockTargets (some b)) (blockSites c trail.scopes (some b))
      r.leaveBlock := by
  obtain ⟨id, span, parameters, statements⟩ := b
  obtain ⟨⟨loops, reflects, marked⟩, assignments, pending, finished⟩ := body
  obtain ⟨names, scope, outer, split, rest, same, -⟩ := reflects.block_inv rfl
  obtain ⟨scopes, inner, kept, waiting, ready⟩ := r
  cases split
  cases loops
  obtain _ | ⟨around, -, marked⟩ := marked
  refine ⟨⟨rfl, ?_, around.assign []⟩, assignments, fun q member => ?_, fun d member => ?_⟩
  · rw [Trail.advance, Trail.assign_nil]
    exact rest
  · rcases List.mem_append.1 member with before | own
    · refine (pending q before).imp_right ?_
      rintro ⟨site, inside, told⟩
      exact ⟨site, List.mem_cons_of_mem _ inside, told⟩
    · rw [List.mem_singleton] at own
      subst q
      exact .inr ⟨_, List.mem_cons_self, rfl, ⟨same.1, same.2.1, marked.marked⟩, rfl⟩
  · refine (finished d member).imp_right ?_
    rintro ⟨site, inside, told⟩
    exact ⟨site, List.mem_cons_of_mem _ inside, told⟩

theorem start_at (parameters : List String) :
    (start parameters).At [] [(LexicalScope.ofBody parameters, [])]
      [(LexicalScope.ofBody parameters, [])] :=
  ⟨rfl, start_reflects parameters, .body (List.nil_subset _)⟩

/-- When a method is over, the assignments tell which captures of its blocks change afterwards. -/
theorem Leaves.blocks {parameters : List String} {body : List Expr}
    (whole : (start parameters).Leaves body spans trail marks assigned mentioned sets
      (listTargets body) sites r) : ∀ b ∈ r.blocks, ∃ site ∈ sites, b.Accounts site := by
  intro b member
  rcases List.mem_append.1 member with earlier | waiting
  · exact (whole.finished b earlier).resolve_left List.not_mem_nil
  · obtain ⟨⟨d, loops⟩, pending, rfl⟩ := List.mem_map.1 waiting
    obtain ⟨site, inside, home, marks, rfl⟩ := (whole.pending _ pending).resolve_left List.not_mem_nil
    refine ⟨site, inside, ⟨marks.block, marks.span, fun c member => ?_⟩, fun c member => ?_⟩
    · obtain ⟨e, capture, rfl⟩ := List.mem_map.1 member
      exact marks.inside e capture
    · obtain ⟨e, capture, rfl⟩ := List.mem_map.1 member
      have span : d.span = site.block.span := marks.span
      have kept : ∀ t, t ∈ r.assignments ↔ t ∈ listTargets body := fun t =>
        (whole.assignments t).trans (or_iff_right List.not_mem_nil)
      simp only [BlockSite.ChangesAfter, List.any_eq_true, mutatesAfter, Bool.and_eq_true, beq_iff_eq,
        Bool.or_eq_true, kept, home, span]
      constructor
      · rintro ⟨⟨name, span⟩, assigned, rfl, late⟩
        exact ⟨span, assigned, late⟩
      · rintro ⟨span, assigned, late⟩
        exact ⟨(e.name, span), assigned, rfl, late⟩

/-- A definition adds its blocks and leaves the place around it alone. -/
theorem absorb_leaves {parameters : List String} {body : List Expr} {inner : CaptureState}
    {spans' : List Span} {around around' : Trail} (place : s.At spans trail marks)
    (whole : (start parameters).Leaves body spans' around around' assigned mentioned sets
      (listTargets body) sites inner) :
    s.Leaves method spans trail marks [] [] [] [] sites (s.absorb inner) := by
  refine ⟨⟨place.loops, ?_, ?_⟩, fun t => ?_, fun _ => .inl, fun b member => ?_⟩
  · rw [Trail.advance_nil]
    exact place.reflects
  · rw [Trail.advance_nil, Trail.advance_nil]
    exact place.marked
  · exact (or_iff_left List.not_mem_nil).symm
  · exact (List.mem_append.1 member).imp_right (whole.blocks b)

end Walk

end CaptureState

open CaptureState

mutual

/-- What the walk over an expression adds tells of the sites of the blocks in it. -/
theorem Expr.walk_leaves {s : CaptureState} {c : Surroundings} {trail marks : Trail}
    (place : s.At (bodySpans c.loops) trail marks) : ∀ e : Expr,
      s.Leaves c.method (bodySpans c.loops) trail marks e.assigns e.mentions e.writes e.targets
        (e.sites c trail.scopes) (e.walk s)
  | ⟨_, span, form⟩ => form.walk_leaves place span

theorem Form.walk_leaves {s : CaptureState} {c : Surroundings} {trail marks : Trail}
    (place : s.At (bodySpans c.loops) trail marks) (span : Span) : ∀ f : Form,
      s.Leaves c.method (bodySpans c.loops) trail marks f.assigns f.mentions f.writes f.targets
        (f.sites span c trail.scopes) (f.walk span s)
  | .literal _ | .defLib _ => .refl place
  | .read target => by
    unfold Form.walk Form.assigns Form.mentions Form.writes Form.targets Form.sites
    cases target.kind with
    | «local» => exact use_leaves place _
    | instanceVar => exact useSelf_leaves place
    | global => exact .refl place
    | constant => exact .refl place
  | .self => useSelf_leaves place
  | .assign target targetSpan value => by
    have first := value.walk_leaves place
    unfold Form.walk Form.assigns Form.mentions Form.writes Form.targets Form.sites
    rw [← List.append_nil (value.sites _ _)]
    cases target.kind with
    | «local» => exact first.trans (assignLocal_leaves first.place _ _)
    | instanceVar => exact first.trans (useSelf_leaves first.place)
    | global => exact first.trans (.refl first.place)
    | constant => exact first.trans (.refl first.place)
  | .call receiver _ _ arguments block => by
    have first := receiverWalk_leaves place receiver
    have second := first.trans (listWalk_leaves first.place arguments)
    have third := second.trans (blockWalk_leaves second.place block)
    simp only [Trail.scopes_advance, List.append_nil] at third
    exact third
  | .yield arguments => listWalk_leaves place arguments
  | .return value | .break value => optionWalk_leaves place value
  | .conditional _ condition consequent alternative => by
    have first := condition.walk_leaves place
    have second := first.trans (listWalk_leaves first.place consequent)
    have third := second.trans (bodyWalk_leaves second.place alternative)
    simp only [Trail.scopes_advance] at third
    exact third
  | .while condition body => by
    -- the condition is no part of the loop to the walk
    have first := condition.walk_leaves (c := c.inLoop ⟨span, condition, body, false⟩) place
    have inside := listWalk_leaves (c := c.inLoop ⟨span, condition, body, true⟩)
      (first.place.enterLoop span) body
    have second := first.trans inside.inLoop
    simp only [Trail.scopes_advance] at second
    exact second
  | .logical _ left right => by
    have first := left.walk_leaves place
    have second := first.trans (right.walk_leaves first.place)
    simp only [Trail.scopes_advance] at second
    exact second
  | .not operand => operand.walk_leaves place
  | .defMethod m => m.walk_leaves place
  | .defClass ⟨_, _, _, _, methods⟩ => methodsWalk_leaves place methods

theorem MethodDef.walk_leaves {s : CaptureState} {method : List Expr} {spans : List Span}
    {trail marks : Trail} (place : s.At spans trail marks) : ∀ m : MethodDef,
      s.Leaves method spans trail marks [] [] [] [] m.sites (m.walk s)
  | ⟨_, _, _, _, body⟩ => absorb_leaves place (listWalk_leaves (c := ⟨[], body⟩) (start_at _) body)

theorem methodsWalk_leaves {s : CaptureState} {method : List Expr} {spans : List Span}
    {trail marks : Trail} (place : s.At spans trail marks) : ∀ ms : List MethodDef,
      s.Leaves method spans trail marks [] [] [] [] (methodsSites ms) (methodsWalk s ms)
  | [] => .refl place
  | m :: ms => by
    have first : s.Leaves method spans trail marks [] [] [] [] m.sites (m.walk s) :=
      m.walk_leaves place
    exact first.trans (methodsWalk_leaves first.place ms)

theorem listWalk_leaves {s : CaptureState} {c : Surroundings} {trail marks : Trail}
    (place : s.At (bodySpans c.loops) trail marks) : ∀ es : List Expr,
      s.Leaves c.method (bodySpans c.loops) trail marks (listAssigns es) (listMentions es)
        (listWrites es) (listTargets es) (listSites c trail.scopes es) (listWalk s es)
  | [] => .refl place
  | e :: es => by
    have first := e.walk_leaves place
    have rest := first.trans (listWalk_leaves first.place es)
    simp only [Trail.scopes_advance] at rest
    exact rest

theorem optionWalk_leaves {s : CaptureState} {c : Surroundings} {trail marks : Trail}
    (place : s.At (bodySpans c.loops) trail marks) : ∀ e : Option Expr,
      s.Leaves c.method (bodySpans c.loops) trail marks (optionAssigns e) (optionMentions e)
        (optionWrites e) (optionTargets e) (optionSites c trail.scopes e) (optionWalk s e)
  | none => .refl place
  | some e => e.walk_leaves place

theorem receiverWalk_leaves {s : CaptureState} {c : Surroundings} {trail marks : Trail}
    (place : s.At (bodySpans c.loops) trail marks) : ∀ e : Option Expr,
      s.Leaves c.method (bodySpans c.loops) trail marks (optionAssigns e) (optionMentions e)
        (optionWrites e) (optionTargets e) (optionSites c trail.scopes e) (receiverWalk s e)
  | none => useSelf_leaves place
  | some e => e.walk_leaves place

theorem bodyWalk_leaves {s : CaptureState} {c : Surroundings} {trail marks : Trail}
    (place : s.At (bodySpans c.loops) trail marks) : ∀ es : Option (List Expr),
      s.Leaves c.method (bodySpans c.loops) trail marks (bodyAssigns es) (bodyMentions es)
        (bodyWrites es) (bodyTargets es) (bodySites c trail.scopes es) (bodyWalk s es)
  | none => .refl place
  | some es => listWalk_leaves place es

theorem blockWalk_leaves {s : CaptureState} {c : Surroundings} {trail marks : Trail}
    (place : s.At (bodySpans c.loops) trail marks) : ∀ b : Option Block,
      s.Leaves c.method (bodySpans c.loops) trail marks [] (blockMentions b) (blockWrites b)
        (blockTargets b) (blockSites c trail.scopes b) (blockWalk s b)
  | none => .refl place
  | some ⟨id, span, parameters, body⟩ =>
    leaveBlock_leaves (b := ⟨id, span, parameters, body⟩)
      (listWalk_leaves (place.enterBlock ⟨id, span, parameters, body⟩) body)

end

/-- What the table has for a block tells of the site of a block. -/
theorem bindBlocks_accounts {bodies : List (List Expr)} :
    ∀ b ∈ (bindBlocks bodies).entries, ∃ site ∈ programSites bodies, b.Accounts site := by
  have whole := listWalk_leaves (c := ⟨[], bodies.flatten⟩) (start_at []) bodies.flatten
  unfold bindBlocks
  rw [foldl_listWalk]
  exact whole.blocks

end TypedBlocks

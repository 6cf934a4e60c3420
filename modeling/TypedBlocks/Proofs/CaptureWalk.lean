import TypedBlocks.Proofs.BlockPlaces
import TypedBlocks.Scope.Capture

/-!
# What the walk finds

The scopes that the walk keeps reflect the scopes around the place that it has reached: a block owns
what it assigns unless that is visible around it, and captures what is mentioned in it and visible
around it. So what the walk has found when it is over describes every block at its place.
-/
namespace TypedBlocks

def BlockScope.Captures (b : BlockScope) (n : String) : Prop := ∃ c ∈ b.captures, c.name = n

/-- What is known of a block, told from its place. -/
structure BlockScope.Describes (b : BlockScope) (p : BlockPlace) : Prop where
  block : b.block = p.block.id
  span : b.span = p.block.span
  parameters : b.parameters = p.block.names
  locals : ∀ n, n ∈ b.locals ↔
    n ∉ p.block.names ∧ n ∈ listAssigns p.block.body ∧ ¬ Visible p.around n
  captures : ∀ n, b.Captures n ↔
    n ∉ p.block.names ∧ n ∈ listMentions p.block.body ∧ Visible p.around n

/-- The scopes around a place, each with the names that have been mentioned in it so far. -/
abbrev Trail := List (LexicalScope × List String)

namespace Trail

def scopes (t : Trail) : List LexicalScope := t.map (·.1)

/-- Mention names; a block with a parameter of the name keeps the mention from the outer scopes. -/
def mention (names : List String) : Trail → Trail
  | [] => []
  | (l, mentioned) :: outer =>
    (l, mentioned ++ names) :: mention (names.filter fun n => !l.parameters.contains n) outer

def assign (names : List String) : Trail → Trail
  | [] => []
  | (l, mentioned) :: outer => ({ l with assigned := l.assigned ++ names }, mentioned) :: outer

/-- The trail after something that assigns and mentions names. -/
def advance (t : Trail) (assigned mentioned : List String) : Trail :=
  assign assigned (mention mentioned t)

theorem mention_nil (t : Trail) : mention [] t = t := by
  induction t with
  | nil => rfl
  | cons head outer ih =>
    rw [mention, List.filter_nil, ih, List.append_nil]

theorem mention_mention (names more : List String) (t : Trail) :
    mention more (mention names t) = mention (names ++ more) t := by
  induction t generalizing names more with
  | nil => rfl
  | cons head outer ih =>
    rw [mention, mention, mention, ih, List.filter_append, List.append_assoc]

theorem assign_nil (t : Trail) : assign [] t = t := by
  cases t with
  | nil => rfl
  | cons head outer => rw [assign, List.append_nil]

theorem assign_assign (names more : List String) (t : Trail) :
    assign more (assign names t) = assign (names ++ more) t := by
  cases t with
  | nil => rfl
  | cons head outer => rw [assign, assign, assign, List.append_assoc]

theorem mention_assign (names mentioned : List String) (t : Trail) :
    mention mentioned (assign names t) = assign names (mention mentioned t) := by
  cases t with
  | nil => rfl
  | cons head outer => rw [assign, mention, mention, assign]

theorem scopes_mention (names : List String) (t : Trail) : (mention names t).scopes = t.scopes := by
  induction t generalizing names with
  | nil => rfl
  | cons head outer ih =>
    rw [mention]
    exact congrArg (head.1 :: ·) (ih _)

theorem scopes_assign (names : List String) (t : Trail) :
    (assign names t).scopes = assignInnermost names t.scopes := by
  cases t <;> rfl

@[simp] theorem advance_nil (t : Trail) : t.advance [] [] = t := by
  rw [advance, mention_nil, assign_nil]

@[simp] theorem scopes_advance (t : Trail) (assigned mentioned : List String) :
    (t.advance assigned mentioned).scopes = assignInnermost assigned t.scopes := by
  rw [advance, scopes_assign, scopes_mention]

theorem advance_advance (t : Trail) (assigned mentioned assigned' mentioned' : List String) :
    (t.advance assigned mentioned).advance assigned' mentioned' =
      t.advance (assigned ++ assigned') (mentioned ++ mentioned') := by
  rw [advance, advance, advance, mention_assign, mention_mention, assign_assign]

end Trail

theorem visible_cons {l : LexicalScope} {outer : List LexicalScope} {n : String} :
    Visible (l :: outer) n ↔ l.Introduces n ∨ Visible outer n := by
  unfold Visible
  rw [List.exists_mem_cons_iff]

theorem not_visible_nil {n : String} : ¬ Visible [] n := by
  rintro ⟨l, member, -⟩
  cases member

/-- The scopes of the walk tell of the scopes around the place what is known of blocks at their
places. -/
inductive Reflects : List OpenScope → Trail → Prop
  | body {names parameters assigned mentioned : List String}
      (owned : ∀ n, n ∈ names ↔ n ∈ parameters ∨ n ∈ assigned) :
      Reflects [⟨names, none⟩] [(⟨none, parameters, assigned⟩, mentioned)]
  | block {scopes : List OpenScope} {trail : Trail} {names assigned mentioned : List String}
      {scope : BlockScope} {b : Block} (outer : Reflects scopes trail)
      (same : scope.block = b.id ∧ scope.span = b.span ∧ scope.parameters = b.names)
      (owned : ∀ n, n ∈ names ↔ n ∈ b.names ∨ (n ∈ assigned ∧ ¬ Visible trail.scopes n))
      (captured : ∀ n, scope.Captures n ↔
        n ∉ b.names ∧ n ∈ mentioned ∧ Visible trail.scopes n) :
      Reflects (⟨names, some scope⟩ :: scopes) ((⟨some b, b.names, assigned⟩, mentioned) :: trail)

namespace BlockScope

theorem captures_recordCapture {b : BlockScope} {name n : String} {mutated : Bool} :
    { b with captures := recordCapture name mutated b.captures }.Captures n ↔
      b.Captures n ∨ n = name := by
  unfold Captures
  dsimp only
  induction b.captures with
  | nil => simp [recordCapture, eq_comm]
  | cons c cs ih =>
    rw [recordCapture]
    split
    · rename_i same
      rw [beq_iff_eq] at same
      simp only [List.exists_mem_cons_iff, ← same]
      constructor
      · exact fun found => .inl found
      · rintro (found | rfl)
        · exact found
        · exact .inl rfl
    · rw [List.exists_mem_cons_iff, ih, List.exists_mem_cons_iff, or_assoc]

end BlockScope

namespace Reflects

variable {scopes : List OpenScope} {trail : Trail}

/-- What no scope has introduced is no business of any block. -/
theorem mention_unseen (reflects : Reflects scopes trail) {names : List String}
    (unseen : ∀ n ∈ names, ¬ Visible trail.scopes n) : Reflects scopes (trail.mention names) := by
  induction reflects generalizing names with
  | body owned => exact .body owned
  | @block scopes trail _ _ mentioned scope b outer same owned captured ih =>
    have unseen_outer : ∀ n ∈ names, ¬ Visible trail.scopes n := fun n member visible =>
      unseen n member (visible_cons.2 (.inr visible))
    refine .block (ih fun n member => unseen_outer n (List.mem_filter.1 member).1) same ?_ ?_
    · rw [Trail.scopes_mention]
      exact owned
    · intro n
      rw [Trail.scopes_mention, captured, List.mem_append]
      constructor
      · exact fun ⟨own, member, visible⟩ => ⟨own, .inl member, visible⟩
      · rintro ⟨own, member | member, visible⟩
        · exact ⟨own, member, visible⟩
        · exact absurd visible (unseen_outer n member)

/-- A use is noted in the blocks inside the scope that has the name, if one has. -/
theorem use (reflects : Reflects scopes trail) (name : String) (mutated : Bool) :
    (¬ Visible trail.scopes name ∧ recordUse? name mutated scopes = none) ∨
      (Visible trail.scopes name ∧ ∃ scopes', recordUse? name mutated scopes = some scopes' ∧
        Reflects scopes' (trail.mention [name])) := by
  induction reflects with
  | @body names parameters assigned mentioned owned =>
    unfold recordUse?
    by_cases own : name ∈ names
    · refine .inr ⟨⟨_, List.mem_cons_self, (owned name).1 own⟩, _, ?_, .body owned⟩
      simp [own]
    · refine .inl ⟨?_, by simp [own]⟩
      intro visible
      rcases visible_cons.1 visible with introduced | visible
      · exact own ((owned name).2 introduced)
      · exact not_visible_nil visible
  | @block scopes trail names assigned mentioned scope b outer same owned captured ih =>
    unfold recordUse?
    by_cases own : name ∈ names
    · have introduced := (owned name).1 own
      have unseen : name ∉ b.names → ¬ Visible trail.scopes name := fun other =>
        (introduced.resolve_left other).2
      refine .inr ⟨visible_cons.2 (.inl (introduced.imp_right (·.1))), _, by simp [own]; rfl, ?_⟩
      refine .block (outer.mention_unseen fun n member => ?_) same ?_ ?_
      · obtain ⟨found, other⟩ := List.mem_filter.1 member
        rw [List.mem_singleton] at found
        subst n
        exact unseen (by simpa using other)
      · rw [Trail.scopes_mention]
        exact owned
      · intro n
        rw [Trail.scopes_mention, captured, List.mem_append, List.mem_singleton]
        constructor
        · exact fun ⟨other, member, visible⟩ => ⟨other, .inl member, visible⟩
        · rintro ⟨other, member | rfl, visible⟩
          · exact ⟨other, member, visible⟩
          · exact absurd visible (unseen other)
    · have other : name ∉ b.names := fun parameter => own ((owned name).2 (.inl parameter))
      have outwards : [name].filter (fun n => !b.names.contains n) = [name] := by
        simp [other]
      rcases ih with ⟨unseen, missing⟩ | ⟨visible, scopes', found, rest⟩
      · refine .inl ⟨fun visible => ?_, by simp [own, missing]⟩
        rcases visible_cons.1 visible with (parameter | assigned) | visible
        · exact other parameter
        · exact own ((owned name).2 (.inr ⟨assigned, unseen⟩))
        · exact unseen visible
      · refine .inr ⟨visible_cons.2 (.inr visible), _, by simp [own, found]; rfl, ?_⟩
        rw [Trail.mention, outwards]
        refine .block rest same ?_ ?_
        · rw [Trail.scopes_mention]
          exact owned
        · intro n
          rw [Trail.scopes_mention, BlockScope.captures_recordCapture, captured, List.mem_append,
            List.mem_singleton]
          constructor
          · rintro (⟨own, member, seen⟩ | rfl)
            · exact ⟨own, .inl member, seen⟩
            · exact ⟨other, .inr rfl, visible⟩
          · rintro ⟨own, member | same, seen⟩
            · exact .inl ⟨own, member, seen⟩
            · exact .inr same

/-- To assign what is visible introduces nothing. -/
theorem assign_visible (reflects : Reflects scopes trail) {name : String}
    (visible : Visible trail.scopes name) : Reflects scopes (trail.assign [name]) := by
  cases reflects with
  | @body names parameters assigned mentioned owned =>
    have introduced := (visible_cons.1 visible).resolve_right not_visible_nil
    refine .body fun n => ?_
    rw [owned, List.mem_append, List.mem_singleton]
    constructor
    · exact fun known => known.imp_right .inl
    · rintro (parameter | before | rfl)
      · exact .inl parameter
      · exact .inr before
      · exact introduced
  | @block scopes trail names assigned mentioned scope b outer same owned captured =>
    refine .block outer same (fun n => ?_) captured
    rw [owned, List.mem_append, List.mem_singleton]
    constructor
    · exact fun known => known.imp_right fun ⟨before, unseen⟩ => ⟨.inl before, unseen⟩
    · rintro (parameter | ⟨before | rfl, unseen⟩)
      · exact .inl parameter
      · exact .inr ⟨before, unseen⟩
      · exact ((visible_cons.1 visible).resolve_right unseen).imp_right fun before => ⟨before, unseen⟩

/-- What no scope has introduced before belongs to the innermost one once it is assigned. -/
theorem declareInnermost (reflects : Reflects scopes trail) {name : String}
    (unseen : ¬ Visible trail.scopes name) :
    Reflects (CaptureState.declareInnermost name scopes) (trail.assign [name]) := by
  cases reflects with
  | @body names parameters assigned mentioned owned =>
    refine .body fun n => ?_
    rw [List.mem_cons, owned, List.mem_append, List.mem_singleton, or_comm, or_assoc]
  | @block scopes trail names assigned mentioned scope b outer same owned captured =>
    refine .block outer same (fun n => ?_) captured
    have outside : ¬ Visible trail.scopes name := fun visible =>
      unseen (visible_cons.2 (.inr visible))
    rw [List.mem_cons, owned, List.mem_append, List.mem_singleton]
    constructor
    · rintro (rfl | parameter | ⟨before, unseen⟩)
      · exact .inr ⟨.inr rfl, outside⟩
      · exact .inl parameter
      · exact .inr ⟨.inl before, unseen⟩
    · rintro (parameter | ⟨before | rfl, unseen⟩)
      · exact .inr (.inl parameter)
      · exact .inr (.inr ⟨before, unseen⟩)
      · exact .inl rfl

theorem self (reflects : Reflects scopes trail) : Reflects (recordSelf scopes) trail := by
  induction reflects with
  | body owned => exact .body owned
  | block outer same owned captured ih => exact .block ih same owned captured

theorem block_inv {l : LexicalScope} {mentioned : List String}
    (reflects : Reflects scopes ((l, mentioned) :: trail)) {b : Block} (block : l.block = some b) :
    ∃ names scope outer, scopes = ⟨names, some scope⟩ :: outer ∧ Reflects outer trail ∧
      (scope.block = b.id ∧ scope.span = b.span ∧ scope.parameters = b.names) ∧
      (∀ n, n ∈ names ↔ n ∈ b.names ∨ (n ∈ l.assigned ∧ ¬ Visible trail.scopes n)) ∧
      ∀ n, scope.Captures n ↔ n ∉ b.names ∧ n ∈ mentioned ∧ Visible trail.scopes n := by
  cases reflects with
  | body owned => cases block
  | block outer same owned captured =>
    cases block
    exact ⟨_, _, _, rfl, outer, same, owned, captured⟩

theorem mention_unseen_one (reflects : Reflects scopes trail) {name : String}
    (unseen : ¬ Visible trail.scopes name) : Reflects scopes (trail.mention [name]) := by
  refine reflects.mention_unseen fun n member => ?_
  rw [List.mem_singleton] at member
  exact member ▸ unseen

theorem getD_use (reflects : Reflects scopes trail) (name : String) :
    Reflects ((recordUse? name false scopes).getD scopes) (trail.mention [name]) := by
  rcases reflects.use name false with ⟨unseen, missing⟩ | ⟨-, scopes', found, rest⟩
  · rw [missing]
    exact reflects.mention_unseen_one unseen
  · rw [found]
    exact rest

theorem getD_assign (reflects : Reflects scopes trail) (name : String) :
    Reflects ((recordUse? name true scopes).getD (CaptureState.declareInnermost name scopes))
      (trail.advance [name] [name]) := by
  unfold Trail.advance
  rcases reflects.use name true with ⟨unseen, missing⟩ | ⟨visible, scopes', found, rest⟩
  · rw [missing]
    refine (reflects.mention_unseen_one unseen).declareInnermost ?_
    rwa [Trail.scopes_mention]
  · rw [found]
    exact rest.assign_visible (by rwa [Trail.scopes_mention])

end Reflects

namespace CaptureState

/-- The blocks that a walk has left behind. -/
def found (s : CaptureState) : List BlockScope := s.finished ++ s.pending.map (·.1)

/-- A walk over something that stands at the end of a trail: the scopes reflect the trail after it,
and the blocks that are added are those in it. -/
structure Passes (s : CaptureState) (trail : Trail) (assigned mentioned : List String)
    (places : List BlockPlace) (r : CaptureState) : Prop where
  scopes : Reflects r.scopes (trail.advance assigned mentioned)
  keeps : ∀ b ∈ s.found, b ∈ r.found
  only : ∀ b ∈ r.found, b ∈ s.found ∨ ∃ p ∈ places, b.Describes p
  made : ∀ p ∈ places, ∃ b ∈ r.found, b.Describes p

namespace Passes

variable {s mid r : CaptureState} {trail : Trail} {assigned mentioned assigned' mentioned' : List String}
  {places places' : List BlockPlace}

theorem of_same (scopes : Reflects r.scopes (trail.advance assigned mentioned))
    (same : r.found = s.found) : s.Passes trail assigned mentioned [] r :=
  ⟨scopes, fun _ member => same ▸ member, fun _ member => .inl (same ▸ member), nofun⟩

theorem refl (reflects : Reflects s.scopes trail) : s.Passes trail [] [] [] s :=
  of_same (by rwa [Trail.advance_nil]) rfl

theorem trans (first : s.Passes trail assigned mentioned places mid)
    (rest : mid.Passes (trail.advance assigned mentioned) assigned' mentioned' places' r) :
    s.Passes trail (assigned ++ assigned') (mentioned ++ mentioned') (places ++ places') r := by
  refine ⟨?_, fun b member => rest.keeps b (first.keeps b member), fun b member => ?_, fun p member => ?_⟩
  · rw [← Trail.advance_advance]
    exact rest.scopes
  · rcases rest.only b member with earlier | ⟨p, place, describes⟩
    · rcases first.only b earlier with known | ⟨p, place, describes⟩
      · exact .inl known
      · exact .inr ⟨p, List.mem_append_left _ place, describes⟩
    · exact .inr ⟨p, List.mem_append_right _ place, describes⟩
  · rcases List.mem_append.1 member with place | place
    · obtain ⟨b, earlier, describes⟩ := first.made p place
      exact ⟨b, rest.keeps b earlier, describes⟩
    · exact rest.made p place

theorem inLoop {span : Span} (inside : (s.enterLoop span).Passes trail assigned mentioned places r) :
    s.Passes trail assigned mentioned places r.leaveLoop :=
  ⟨inside.scopes, inside.keeps, inside.only, inside.made⟩

end Passes

theorem use_passes {s : CaptureState} {trail : Trail} (reflects : Reflects s.scopes trail)
    (name : String) : s.Passes trail [] [name] [] (s.use name) := by
  refine .of_same ?_ rfl
  rw [Trail.advance, Trail.assign_nil]
  exact reflects.getD_use name

theorem useSelf_passes {s : CaptureState} {trail : Trail} (reflects : Reflects s.scopes trail) :
    s.Passes trail [] [] [] s.useSelf :=
  .of_same (by rw [Trail.advance_nil]; exact reflects.self) rfl

theorem assignLocal_passes {s : CaptureState} {trail : Trail} (reflects : Reflects s.scopes trail)
    (name : String) (span : Span) :
    s.Passes trail [name] [name] [] (s.assignLocal name span) :=
  .of_same (reflects.getD_assign name) rfl

theorem enterBlock_reflects {s : CaptureState} {trail : Trail} (reflects : Reflects s.scopes trail)
    (b : Block) : Reflects (s.enterBlock b.id b.span b.names).scopes
      ((LexicalScope.ofBlock b, []) :: trail) := by
  refine .block reflects ⟨rfl, rfl, rfl⟩ (fun n => ?_) (fun n => ?_)
  · simp
  · simp [BlockScope.Captures]

theorem mem_sortedLocals {parameters names : List String} {n : String} :
    n ∈ sortedLocals parameters names ↔ n ∈ names ∧ n ∉ parameters := by
  unfold sortedLocals
  rw [List.mem_mergeSort]
  simp

/-- What is known of a block when its body is over. -/
theorem leaveBlock_passes {s inside : CaptureState} {trail : Trail} {b : Block}
    (body : (s.enterBlock b.id b.span b.names).Passes ((LexicalScope.ofBlock b, []) :: trail)
      (listAssigns b.body) (listMentions b.body)
      (listPlaces (LexicalScope.ofBlock b :: trail.scopes) b.body) inside) :
    s.Passes trail [] (blockMentions (some b)) (blockPlaces trail.scopes (some b))
      inside.leaveBlock := by
  obtain ⟨id, span, parameters, statements⟩ := b
  obtain ⟨reflects, keeps, only, made⟩ := body
  obtain ⟨names, scope, outer, split, rest, same, owned, captured⟩ := reflects.block_inv rfl
  rw [Trail.scopes_mention] at owned captured
  obtain ⟨scopes, loops, assignments, pending, finished⟩ := inside
  cases split
  have describes : BlockScope.Describes
      { scope with locals := sortedLocals scope.parameters names }
      ⟨⟨id, span, parameters, statements⟩, trail.scopes⟩ := by
    refine ⟨same.1, same.2.1, same.2.2, fun n => ?_, captured⟩
    rw [mem_sortedLocals, owned, same.2.2]
    constructor
    · rintro ⟨parameter | ⟨member, unseen⟩, other⟩
      · exact absurd parameter other
      · exact ⟨other, member, unseen⟩
    · rintro ⟨other, member, unseen⟩
      exact ⟨.inr ⟨member, unseen⟩, other⟩
  have left : ∀ c, c ∈ (leaveBlock ⟨⟨names, some scope⟩ :: outer, loops, assignments, pending,
      finished⟩).found ↔
        c ∈ found ⟨⟨names, some scope⟩ :: outer, loops, assignments, pending, finished⟩ ∨
          c = { scope with locals := sortedLocals scope.parameters names } := by
    intro c
    simp only [found, leaveBlock, List.map_append, List.mem_append, List.map_cons, List.map_nil,
      List.mem_singleton, or_assoc]
  refine ⟨?_, fun c member => ?_, fun c member => ?_, fun p member => ?_⟩
  · rw [Trail.advance, Trail.assign_nil]
    exact rest
  · exact (left c).2 (.inl (keeps c member))
  · rcases (left c).1 member with inner | rfl
    · refine (only c inner).imp_right ?_
      rintro ⟨p, place, told⟩
      exact ⟨p, List.mem_cons_of_mem _ place, told⟩
    · exact .inr ⟨_, List.mem_cons_self, describes⟩
  · rcases List.mem_cons.1 member with rfl | place
    · exact ⟨_, (left _).2 (.inr rfl), describes⟩
    · obtain ⟨c, inner, told⟩ := made p place
      exact ⟨c, (left c).2 (.inl inner), told⟩

theorem describes_mutated {b : BlockScope} {p : BlockPlace} (describes : b.Describes p)
    (after : Capture → Bool) :
    BlockScope.Describes
      { b with captures := b.captures.map fun c => { c with mutatedAfter := after c } } p := by
  refine ⟨describes.block, describes.span, describes.parameters, describes.locals, fun n => ?_⟩
  rw [← describes.captures]
  simp [BlockScope.Captures]

/-- The blocks of a body are those that its walk has left behind. -/
theorem blocks_found {s : CaptureState} {b : BlockScope} (member : b ∈ s.blocks) :
    ∃ c ∈ s.found, ∀ p, c.Describes p → b.Describes p := by
  rcases List.mem_append.1 member with earlier | pending
  · exact ⟨b, List.mem_append_left _ earlier, fun _ => id⟩
  · obtain ⟨⟨c, loops⟩, inside, rfl⟩ := List.mem_map.1 pending
    exact ⟨c, List.mem_append_right _ (List.mem_map_of_mem inside),
      fun _ describes => describes_mutated describes _⟩

theorem found_blocks {s : CaptureState} {c : BlockScope} (member : c ∈ s.found) :
    ∃ b ∈ s.blocks, ∀ p, c.Describes p → b.Describes p := by
  rcases List.mem_append.1 member with earlier | pending
  · exact ⟨c, List.mem_append_left _ earlier, fun _ => id⟩
  · obtain ⟨⟨c, loops⟩, inside, rfl⟩ := List.mem_map.1 pending
    exact ⟨_, List.mem_append_right _ (List.mem_map_of_mem inside),
      fun _ describes => describes_mutated describes _⟩

theorem start_reflects (parameters : List String) :
    Reflects (start parameters).scopes [(LexicalScope.ofBody parameters, [])] :=
  .body fun n => by simp

/-- A definition adds its blocks and leaves the place around it alone. -/
theorem absorb_passes {s inner : CaptureState} {trail : Trail} {parameters : List String}
    {assigned mentioned : List String} {places : List BlockPlace}
    (reflects : Reflects s.scopes trail)
    (body : (start parameters).Passes [(LexicalScope.ofBody parameters, [])] assigned mentioned
      places inner) : s.Passes trail [] [] places (s.absorb inner) := by
  have taken : ∀ b, b ∈ (s.absorb inner).found ↔ b ∈ s.found ∨ b ∈ inner.blocks := by
    intro b
    simp only [found, absorb, List.mem_append, or_right_comm]
  refine ⟨by rwa [Trail.advance_nil], fun b member => ?_, fun b member => ?_, fun p member => ?_⟩
  · exact (taken b).2 (.inl member)
  · refine ((taken b).1 member).imp_right fun block => ?_
    obtain ⟨c, left, told⟩ := blocks_found block
    obtain ⟨p, place, describes⟩ := (body.only c left).resolve_left List.not_mem_nil
    exact ⟨p, place, told p describes⟩
  · obtain ⟨c, left, describes⟩ := body.made p member
    obtain ⟨b, block, told⟩ := found_blocks left
    exact ⟨b, (taken b).2 (.inr block), told p describes⟩

end CaptureState

mutual

/-- The walk over an expression adds what stands in it. -/
theorem Expr.walk_passes {s : CaptureState} {trail : Trail} (reflects : Reflects s.scopes trail) :
    ∀ e : Expr, s.Passes trail e.assigns e.mentions (e.places trail.scopes) (e.walk s)
  | ⟨_, span, form⟩ => form.walk_passes reflects span

theorem Form.walk_passes {s : CaptureState} {trail : Trail} (reflects : Reflects s.scopes trail)
    (span : Span) :
    ∀ f : Form, s.Passes trail f.assigns f.mentions (f.places trail.scopes) (f.walk span s)
  | .literal _ | .defLib _ => .refl reflects
  | .read target => by
    unfold Form.walk Form.assigns Form.mentions Form.places
    cases target.kind with
    | «local» => exact CaptureState.use_passes reflects _
    | instanceVar => exact CaptureState.useSelf_passes reflects
    | global => exact .refl reflects
    | constant => exact .refl reflects
  | .self => CaptureState.useSelf_passes reflects
  | .assign target targetSpan value => by
    have first := value.walk_passes reflects
    unfold Form.walk Form.assigns Form.mentions Form.places
    rw [← List.append_nil (value.places _)]
    cases target.kind with
    | «local» => exact first.trans (CaptureState.assignLocal_passes first.scopes _ _)
    | instanceVar => exact first.trans (CaptureState.useSelf_passes first.scopes)
    | global => exact first.trans (.refl first.scopes)
    | constant => exact first.trans (.refl first.scopes)
  | .call receiver _ _ arguments block => by
    have first := receiverWalk_passes reflects receiver
    have second := first.trans (listWalk_passes first.scopes arguments)
    have third := second.trans (blockWalk_passes second.scopes block)
    simp only [Trail.scopes_advance, List.append_nil] at third
    exact third
  | .yield arguments => listWalk_passes reflects arguments
  | .return value | .break value => optionWalk_passes reflects value
  | .conditional _ condition consequent alternative => by
    have first := condition.walk_passes reflects
    have second := first.trans (listWalk_passes first.scopes consequent)
    have third := second.trans (bodyWalk_passes second.scopes alternative)
    simp only [Trail.scopes_advance] at third
    exact third
  | .while condition body => by
    have first := condition.walk_passes reflects
    have second := first.trans (listWalk_passes (s := (condition.walk s).enterLoop span)
      first.scopes body).inLoop
    simp only [Trail.scopes_advance] at second
    exact second
  | .logical _ left right => by
    have first := left.walk_passes reflects
    have second := first.trans (right.walk_passes first.scopes)
    simp only [Trail.scopes_advance] at second
    exact second
  | .not operand => operand.walk_passes reflects
  | .defMethod m => m.walk_passes reflects
  | .defClass ⟨_, _, _, _, methods⟩ => methodsWalk_passes reflects methods

theorem MethodDef.walk_passes {s : CaptureState} {trail : Trail}
    (reflects : Reflects s.scopes trail) :
    ∀ m : MethodDef, s.Passes trail [] [] m.places (m.walk s)
  | ⟨_, _, _, _, body⟩ =>
    CaptureState.absorb_passes reflects (listWalk_passes (CaptureState.start_reflects _) body)

theorem methodsWalk_passes {s : CaptureState} {trail : Trail} (reflects : Reflects s.scopes trail) :
    ∀ ms : List MethodDef, s.Passes trail [] [] (methodsPlaces ms) (methodsWalk s ms)
  | [] => .refl reflects
  | m :: ms => by
    have first := m.walk_passes reflects
    exact first.trans (methodsWalk_passes first.scopes ms)

theorem listWalk_passes {s : CaptureState} {trail : Trail} (reflects : Reflects s.scopes trail) :
    ∀ es : List Expr,
      s.Passes trail (listAssigns es) (listMentions es) (listPlaces trail.scopes es) (listWalk s es)
  | [] => .refl reflects
  | e :: es => by
    have first := e.walk_passes reflects
    have rest := first.trans (listWalk_passes first.scopes es)
    simp only [Trail.scopes_advance] at rest
    exact rest

theorem optionWalk_passes {s : CaptureState} {trail : Trail} (reflects : Reflects s.scopes trail) :
    ∀ e : Option Expr, s.Passes trail (optionAssigns e) (optionMentions e)
      (optionPlaces trail.scopes e) (optionWalk s e)
  | none => .refl reflects
  | some e => e.walk_passes reflects

theorem receiverWalk_passes {s : CaptureState} {trail : Trail} (reflects : Reflects s.scopes trail) :
    ∀ e : Option Expr, s.Passes trail (optionAssigns e) (optionMentions e)
      (optionPlaces trail.scopes e) (receiverWalk s e)
  | none => CaptureState.useSelf_passes reflects
  | some e => e.walk_passes reflects

theorem bodyWalk_passes {s : CaptureState} {trail : Trail} (reflects : Reflects s.scopes trail) :
    ∀ es : Option (List Expr), s.Passes trail (bodyAssigns es) (bodyMentions es)
      (bodyPlaces trail.scopes es) (bodyWalk s es)
  | none => .refl reflects
  | some es => listWalk_passes reflects es

theorem blockWalk_passes {s : CaptureState} {trail : Trail} (reflects : Reflects s.scopes trail) :
    ∀ b : Option Block, s.Passes trail [] (blockMentions b) (blockPlaces trail.scopes b)
      (blockWalk s b)
  | none => .refl reflects
  | some ⟨id, span, parameters, body⟩ =>
    CaptureState.leaveBlock_passes (b := ⟨id, span, parameters, body⟩)
      (listWalk_passes (CaptureState.enterBlock_reflects reflects ⟨id, span, parameters, body⟩) body)

end

theorem listWalk_append (s : CaptureState) (es fs : List Expr) :
    listWalk s (es ++ fs) = listWalk (listWalk s es) fs := by
  induction es generalizing s with
  | nil => rfl
  | cons e es ih => exact ih (e.walk s)

theorem foldl_listWalk (s : CaptureState) (bodies : List (List Expr)) :
    bodies.foldl listWalk s = listWalk s bodies.flatten := by
  induction bodies generalizing s with
  | nil => rfl
  | cons body bodies ih => rw [List.foldl_cons, List.flatten_cons, listWalk_append, ih]

/-- In a program whose nodes have numbers of their own, what the table has for a block describes the
block at its place. -/
theorem bindBlocks_describes {bodies : List (List Expr)}
    (distinct : (listIds bodies.flatten).Nodup) {p : BlockPlace} (place : p ∈ programPlaces bodies) :
    ∃ b, (bindBlocks bodies).block? p.block.id = some b ∧ b.Describes p := by
  have walk : (CaptureState.start []).Passes [(LexicalScope.ofBody [], [])]
      (listAssigns bodies.flatten) (listMentions bodies.flatten) (programPlaces bodies)
      (bodies.foldl listWalk (CaptureState.start [])) := by
    rw [foldl_listWalk]
    exact listWalk_passes (CaptureState.start_reflects []) bodies.flatten
  obtain ⟨c, left, told⟩ := walk.made p place
  obtain ⟨b, block, describes⟩ := CaptureState.found_blocks left
  unfold CaptureTable.block? bindBlocks
  cases hit : (bodies.foldl listWalk (CaptureState.start [])).blocks.find?
      (·.block == p.block.id) with
  | none =>
    have missed := List.find?_eq_none.1 hit b block
    rw [(describes p told).block] at missed
    simp at missed
  | some d =>
    refine ⟨d, rfl, ?_⟩
    have same := List.find?_some hit
    rw [beq_iff_eq] at same
    obtain ⟨e, left, describes⟩ := CaptureState.blocks_found (List.mem_of_find?_eq_some hit)
    obtain ⟨q, other, told⟩ := (walk.only e left).resolve_left nofun
    have describes := describes q told
    have unique := place_unique distinct other place (describes.block.symm.trans same)
    exact unique ▸ describes

end TypedBlocks

import TypedBlocks.Proofs.BlockPlaces
import TypedBlocks.Proofs.ReadSpans

/-!
# Blocks and the loops around them

Where the blocks of a program stand among the loops of their method, and where that method assigns its
variables. Whatever a loop assigns stands within the loop, and what its body assigns stands after its
condition.
-/
namespace TypedBlocks

mutual

/-- Local variables that an expression assigns, blocks in it included but for their parameters, and
definitions left out. -/
def Expr.writes : Expr → List String
  | ⟨_, _, form⟩ => form.writes

def Form.writes : Form → List String
  | .literal _ | .read _ | .self | .defMethod _ | .defClass _ | .defLib _ => []
  | .assign target _ value =>
    value.writes ++ (match target.kind with | .local => [target.name] | _ => [])
  | .call receiver _ _ arguments block =>
    optionWrites receiver ++ listWrites arguments ++ blockWrites block
  | .yield arguments => listWrites arguments
  | .return value | .break value => optionWrites value
  | .conditional _ condition consequent alternative =>
    condition.writes ++ listWrites consequent ++ bodyWrites alternative
  | .while condition body => condition.writes ++ listWrites body
  | .logical _ left right => left.writes ++ right.writes
  | .not operand => operand.writes

def listWrites : List Expr → List String
  | [] => []
  | e :: es => e.writes ++ listWrites es

def optionWrites : Option Expr → List String
  | none => []
  | some e => e.writes

def bodyWrites : Option (List Expr) → List String
  | none => []
  | some es => listWrites es

def blockWrites : Option Block → List String
  | none => []
  | some ⟨_, _, parameters, body⟩ =>
    (listWrites body).filter fun n => !(parameters.map (·.name)).contains n

end

mutual

/-- The assignments to local variables in an expression, each with the span of its target, blocks in
it included and definitions left out. -/
def Expr.targets : Expr → List (String × Span)
  | ⟨_, _, form⟩ => form.targets

def Form.targets : Form → List (String × Span)
  | .literal _ | .read _ | .self | .defMethod _ | .defClass _ | .defLib _ => []
  | .assign target span value =>
    value.targets ++ (match target.kind with | .local => [(target.name, span)] | _ => [])
  | .call receiver _ _ arguments block =>
    optionTargets receiver ++ listTargets arguments ++ blockTargets block
  | .yield arguments => listTargets arguments
  | .return value | .break value => optionTargets value
  | .conditional _ condition consequent alternative =>
    condition.targets ++ listTargets consequent ++ bodyTargets alternative
  | .while condition body => condition.targets ++ listTargets body
  | .logical _ left right => left.targets ++ right.targets
  | .not operand => operand.targets

def listTargets : List Expr → List (String × Span)
  | [] => []
  | e :: es => e.targets ++ listTargets es

def optionTargets : Option Expr → List (String × Span)
  | none => []
  | some e => e.targets

def bodyTargets : Option (List Expr) → List (String × Span)
  | none => []
  | some es => listTargets es

def blockTargets : Option Block → List (String × Span)
  | none => []
  | some ⟨_, _, _, body⟩ => listTargets body

end

/-- A loop around a place, which is in the body of the loop or in its condition. -/
structure LoopAround where
  span : Span
  condition : Expr
  body : List Expr
  inBody : Bool

/-- The assignments in the condition and in the body of the loop. -/
def LoopAround.targets (l : LoopAround) : List (String × Span) :=
  l.condition.targets ++ listTargets l.body

/-- The spans of the loops in whose bodies a place is. -/
def bodySpans (loops : List LoopAround) : List Span := (loops.filter (·.inBody)).map (·.span)

/-- What stands around a place: the loops, the innermost first, and the body of the method or of the
program. -/
structure Surroundings where
  loops : List LoopAround
  method : List Expr

def Surroundings.inLoop (c : Surroundings) (l : LoopAround) : Surroundings :=
  { c with loops := l :: c.loops }

/-- A block literal with the scopes, the loops and the body around it. -/
structure BlockSite extends BlockPlace, Surroundings

mutual

/-- The blocks in an expression, those in definitions included. -/
def Expr.sites (c : Surroundings) (around : List LexicalScope) :
    Expr → List BlockSite
  | ⟨_, span, form⟩ => form.sites span c around

def Form.sites (span : Span) (c : Surroundings) (around : List LexicalScope) : Form → List BlockSite
  | .literal _ | .read _ | .self | .defLib _ => []
  | .assign _ _ value => value.sites c around
  | .call receiver _ _ arguments block =>
    optionSites c around receiver ++
      listSites c (assignInnermost (optionAssigns receiver) around) arguments ++
      blockSites c
        (assignInnermost (optionAssigns receiver ++ listAssigns arguments) around) block
  | .yield arguments => listSites c around arguments
  | .return value | .break value => optionSites c around value
  | .conditional _ condition consequent alternative =>
    condition.sites c around ++
      listSites c (assignInnermost condition.assigns around) consequent ++
      bodySites c
        (assignInnermost (condition.assigns ++ listAssigns consequent) around) alternative
  | .while condition body =>
    condition.sites (c.inLoop ⟨span, condition, body, false⟩) around ++
      listSites (c.inLoop ⟨span, condition, body, true⟩)
        (assignInnermost condition.assigns around) body
  | .logical _ left right =>
    left.sites c around ++ right.sites c (assignInnermost left.assigns around)
  | .not operand => operand.sites c around
  | .defMethod m => m.sites
  | .defClass ⟨_, _, _, _, methods⟩ => methodsSites methods

def MethodDef.sites : MethodDef → List BlockSite
  | ⟨_, _, _, parameters, body⟩ =>
    listSites ⟨[], body⟩ [LexicalScope.ofBody (parameters.map (·.name))] body

def methodsSites : List MethodDef → List BlockSite
  | [] => []
  | m :: ms => m.sites ++ methodsSites ms

def listSites (c : Surroundings) (around : List LexicalScope) :
    List Expr → List BlockSite
  | [] => []
  | e :: es =>
    e.sites c around ++ listSites c (assignInnermost e.assigns around) es

def optionSites (c : Surroundings) (around : List LexicalScope) :
    Option Expr → List BlockSite
  | none => []
  | some e => e.sites c around

def bodySites (c : Surroundings) (around : List LexicalScope) :
    Option (List Expr) → List BlockSite
  | none => []
  | some es => listSites c around es

def blockSites (c : Surroundings) (around : List LexicalScope) :
    Option Block → List BlockSite
  | none => []
  | some ⟨id, span, parameters, body⟩ =>
    ⟨⟨⟨id, span, parameters, body⟩, around⟩, c⟩ ::
      listSites c
        (⟨some ⟨id, span, parameters, body⟩, parameters.map (·.name), []⟩ :: around) body

end

/-- The blocks of a program made of several bodies that share their top level. -/
def programSites (bodies : List (List Expr)) : List BlockSite :=
  listSites ⟨[], bodies.flatten⟩ [LexicalScope.ofBody []] bodies.flatten

section Places

mutual

/-- The blocks stand at their places. -/
theorem Expr.sites_places (c : Surroundings) (around : List LexicalScope) : ∀ e : Expr,
    (e.sites c around).map BlockSite.toBlockPlace = e.places around
  | ⟨_, span, form⟩ => form.sites_places span c around

theorem Form.sites_places (span : Span) (c : Surroundings) (around : List LexicalScope) :
    ∀ f : Form, (f.sites span c around).map BlockSite.toBlockPlace = f.places around
  | .literal _ | .read _ | .self | .defLib _ => rfl
  | .assign _ _ value => value.sites_places c around
  | .call receiver _ _ arguments block => by
    rw [Form.sites, Form.places, List.map_append, List.map_append, optionSites_places,
      listSites_places, blockSites_places]
  | .yield arguments => listSites_places c around arguments
  | .return value | .break value => optionSites_places c around value
  | .conditional _ condition consequent alternative => by
    rw [Form.sites, Form.places, List.map_append, List.map_append, condition.sites_places,
      listSites_places, bodySites_places]
  | .while condition body => by
    rw [Form.sites, Form.places, List.map_append, condition.sites_places, listSites_places]
  | .logical _ left right => by
    rw [Form.sites, Form.places, List.map_append, left.sites_places, right.sites_places]
  | .not operand => operand.sites_places c around
  | .defMethod m => m.sites_places
  | .defClass ⟨_, _, _, _, methods⟩ => methodsSites_places methods

theorem MethodDef.sites_places : ∀ m : MethodDef,
    m.sites.map BlockSite.toBlockPlace = m.places
  | ⟨_, _, _, _, body⟩ => listSites_places ⟨[], body⟩ _ body

theorem methodsSites_places : ∀ ms : List MethodDef,
    (methodsSites ms).map BlockSite.toBlockPlace = methodsPlaces ms
  | [] => rfl
  | m :: ms => by
    rw [methodsSites, methodsPlaces, List.map_append, m.sites_places, methodsSites_places]

theorem listSites_places (c : Surroundings) (around : List LexicalScope) : ∀ es : List Expr,
    (listSites c around es).map BlockSite.toBlockPlace = listPlaces around es
  | [] => rfl
  | e :: es => by
    rw [listSites, listPlaces, List.map_append, e.sites_places, listSites_places]

theorem optionSites_places (c : Surroundings) (around : List LexicalScope) :
    ∀ e : Option Expr,
      (optionSites c around e).map BlockSite.toBlockPlace = optionPlaces around e
  | none => rfl
  | some e => e.sites_places c around

theorem bodySites_places (c : Surroundings) (around : List LexicalScope) :
    ∀ es : Option (List Expr),
      (bodySites c around es).map BlockSite.toBlockPlace = bodyPlaces around es
  | none => rfl
  | some es => listSites_places c around es

theorem blockSites_places (c : Surroundings) (around : List LexicalScope) :
    ∀ b : Option Block,
      (blockSites c around b).map BlockSite.toBlockPlace = blockPlaces around b
  | none => rfl
  | some ⟨_, _, _, body⟩ => congrArg (List.cons _) (listSites_places c _ body)

end

end Places

theorem mem_programPlaces {bodies : List (List Expr)} {site : BlockSite}
    (member : site ∈ programSites bodies) : site.toBlockPlace ∈ programPlaces bodies := by
  rw [programPlaces, ← listSites_places ⟨[], bodies.flatten⟩]
  exact List.mem_map_of_mem member

/-- The blocks of a program with numbers of its own for all nodes have one site each. -/
theorem site_unique {bodies : List (List Expr)} (distinct : (listIds bodies.flatten).Nodup)
    {first second : BlockSite} (one : first ∈ programSites bodies)
    (other : second ∈ programSites bodies) (same : first.block.id = second.block.id) : first = second := by
  have nodup := placeIds_nodup distinct
  rw [programPlaces, ← listSites_places ⟨[], bodies.flatten⟩, placeIds, List.map_map] at nodup
  exact List.inj_on_of_nodup_map nodup one other (congrArg NodeId.val same)

section Targets

variable {t : String × Span}

theorem mem_listTargets {es : List Expr} : t ∈ listTargets es ↔ ∃ e ∈ es, t ∈ e.targets := by
  induction es with
  | nil => simp [listTargets]
  | cons e es ih => rw [listTargets, List.mem_append, ih, List.exists_mem_cons_iff]

theorem mem_listWrites {n : String} {es : List Expr} :
    n ∈ listWrites es ↔ ∃ e ∈ es, n ∈ e.writes := by
  induction es with
  | nil => simp [listWrites]
  | cons e es ih => rw [listWrites, List.mem_append, ih, List.exists_mem_cons_iff]

/-- An assignment in a form is the form's own or stands in a part of it. -/
theorem Form.mem_targets {f : Form} (member : t ∈ f.targets) :
    (∃ target value, f = .assign target t.2 value) ∨ ∃ d ∈ f.parts, t ∈ d.targets := by
  cases f with
  | literal _ | read _ | self | defMethod _ | defClass _ | defLib _ => cases member
  | assign target span value =>
    rcases List.mem_append.1 member with inner | own
    · exact .inr ⟨value, List.mem_singleton.2 rfl, inner⟩
    · refine .inl ⟨target, value, ?_⟩
      split at own
      · rw [List.mem_singleton.1 own]
      · cases own
  | call receiver name span arguments block =>
    refine .inr ?_
    simp only [targets, List.mem_append] at member
    simp only [parts, List.mem_append]
    rcases member with (inner | inner) | inner
    · cases receiver with
      | none => cases inner
      | some e => exact ⟨e, .inl (.inl (Option.mem_toList.2 rfl)), inner⟩
    · obtain ⟨e, argument, inner⟩ := mem_listTargets.1 inner
      exact ⟨e, .inl (.inr argument), inner⟩
    · cases block with
      | none => cases inner
      | some b =>
        cases b
        obtain ⟨e, statement, inner⟩ := mem_listTargets.1 inner
        exact ⟨e, .inr statement, inner⟩
  | yield arguments => exact .inr (mem_listTargets.1 member)
  | «return» value | «break» value =>
    cases value with
    | none => cases member
    | some e => exact .inr ⟨e, List.mem_singleton.2 rfl, member⟩
  | conditional kind condition consequent alternative =>
    refine .inr ?_
    simp only [targets, List.mem_append] at member
    simp only [parts, List.cons_append, List.mem_cons, List.mem_append]
    rcases member with (inner | inner) | inner
    · exact ⟨condition, .inl rfl, inner⟩
    · obtain ⟨e, statement, inner⟩ := mem_listTargets.1 inner
      exact ⟨e, .inr (.inl statement), inner⟩
    · cases alternative with
      | none => cases inner
      | some es =>
        obtain ⟨e, statement, inner⟩ := mem_listTargets.1 inner
        exact ⟨e, .inr (.inr statement), inner⟩
  | «while» condition body =>
    refine .inr ?_
    rcases List.mem_append.1 member with inner | inner
    · exact ⟨condition, List.mem_cons_self, inner⟩
    · obtain ⟨e, statement, inner⟩ := mem_listTargets.1 inner
      exact ⟨e, List.mem_cons_of_mem _ statement, inner⟩
  | logical connective left right =>
    refine .inr ?_
    rcases List.mem_append.1 member with inner | inner
    · exact ⟨left, by simp [parts], inner⟩
    · exact ⟨right, by simp [parts], inner⟩
  | not operand => exact .inr ⟨operand, List.mem_singleton.2 rfl, member⟩

/-- What an expression assigns stands in its span. -/
theorem Expr.Nested.contains_target {e : Expr} (nested : e.Nested) (member : t ∈ e.targets) :
    e.span.contains t.2 = true := by
  induction nested with
  | @intro e own parts bodies ih =>
    rcases e with ⟨id, span, form⟩
    rcases Form.mem_targets member with ⟨target, value, form⟩ | ⟨d, part, inner⟩
    · have lays := own.lays
      dsimp only at form lays
      rw [form] at lays
      exact lays
    · exact Span.contains_trans (own.parts d part) (ih d part inner)

end Targets

/-- How a loop of a method stands around a span: the method has all assignments of the loop, these
stand in the loop, and those in its body stand after the span if that is in its condition. -/
structure LoopAround.Holds (l : LoopAround) (method : List Expr) (span : Span) : Prop where
  method : ∀ t ∈ l.targets, t ∈ listTargets method
  inside : ∀ t ∈ l.targets, l.span.contains t.2 = true
  after : l.inBody = false → ∀ t ∈ listTargets l.body, t.2.isAfter span = true

/-- Each block around the place assigns the names, but for those that are parameters of a block
further inside. -/
def SetAround (around : List LexicalScope) (names : List String) : Prop :=
  ∀ inner l outer, around = inner ++ l :: outer → ∀ b, l.block = some b →
    ∀ n ∈ names, (∀ k ∈ inner, n ∉ k.parameters) → n ∈ listWrites b.body

/-- Something with the given assignments stands in the span between loops and scopes. -/
structure Surroundings.Hold (c : Surroundings) (around : List LexicalScope) (span : Span)
    (targets : List (String × Span)) (sets : List String) : Prop where
  method : ∀ t ∈ targets, t ∈ listTargets c.method
  loops : ∀ l ∈ c.loops, l.Holds c.method span
  blocks : SetAround around sets

/-- The loops and the blocks around a block hold it. -/
structure BlockSite.Held (site : BlockSite) : Prop where
  loops : ∀ l ∈ site.loops, l.Holds site.method site.block.span
  blocks : SetAround site.around (blockWrites (some site.block))

section Holding

variable {c : Surroundings} {around : List LexicalScope} {span inner : Span}
  {targets targets' : List (String × Span)} {sets sets' : List String} {method : List Expr}

/-- A loop with nested spans holds what comes before its body, or stands in it. -/
theorem LoopAround.Holds.of_nested {l : LoopAround}
    (known : ∀ t ∈ l.targets, t ∈ listTargets method)
    (within : ∀ e ∈ l.condition :: l.body, l.span.contains e.span = true)
    (nested : ∀ e ∈ l.condition :: l.body, e.Nested)
    (later : l.inBody = false → ∀ e ∈ l.body, e.span.isAfter span = true) : l.Holds method span := by
  rw [List.forall_mem_cons] at within nested
  refine ⟨known, List.forall_mem_append.2 ⟨fun t member => ?_, fun t member => ?_⟩,
    fun condition t member => ?_⟩
  · exact Span.contains_trans within.1 (nested.1.contains_target member)
  · obtain ⟨e, statement, inner⟩ := mem_listTargets.1 member
    exact Span.contains_trans (within.2 e statement) ((nested.2 e statement).contains_target inner)
  · obtain ⟨e, statement, inner⟩ := mem_listTargets.1 member
    exact Span.isAfter_inside (later condition e statement)
      ((nested.2 e statement).contains_target inner) span.contains_refl

theorem LoopAround.Holds.within {l : LoopAround} (holds : l.Holds method span)
    (within : span.contains inner = true) : l.Holds method inner :=
  ⟨holds.method, holds.inside, fun condition t member =>
    Span.isAfter_inside (holds.after condition t member) t.2.contains_refl within⟩

theorem SetAround.mono (assigned : SetAround around sets) (fewer : ∀ n ∈ sets', n ∈ sets) :
    SetAround around sets' :=
  fun inner l outer split b block n member => assigned inner l outer split b block n (fewer n member)

/-- What has been assigned before does not matter. -/
theorem SetAround.after (assigned : SetAround around sets) (names : List String) :
    SetAround (assignInnermost names around) sets := by
  intro inner l outer split b block n member other
  rcases around with _ | ⟨k, around⟩
  · simp [assignInnermost] at split
  · rw [assignInnermost] at split
    rcases List.cons_eq_append_iff.1 split with ⟨rfl, same⟩ | ⟨inner, rfl, rest⟩
    · cases same
      exact assigned [] k _ rfl b block n member (List.forall_mem_nil _)
    · rw [List.forall_mem_cons] at other
      refine assigned (k :: inner) l outer (congrArg (List.cons k) rest) b block n member ?_
      exact List.forall_mem_cons.2 ⟨other.1, other.2⟩

theorem SetAround.ofBody (parameters : List String) :
    SetAround [LexicalScope.ofBody parameters] sets := by
  intro inner l outer split b block
  rcases List.cons_eq_append_iff.1 split with ⟨rfl, same⟩ | ⟨inner, rfl, rest⟩
  · cases same
    cases block
  · simp at rest

theorem SetAround.ofBlock {b : Block} (assigned : SetAround around (blockWrites (some b))) :
    SetAround (LexicalScope.ofBlock b :: around) (listWrites b.body) := by
  intro inner l outer split c block n member other
  rcases List.cons_eq_append_iff.1 split with ⟨rfl, same⟩ | ⟨inner, rfl, rest⟩
  · cases same
    cases block
    exact member
  · rw [List.forall_mem_cons] at other
    refine assigned inner l outer rest c block n ?_ other.2
    have outside : n ∉ b.names := other.1
    rcases b with ⟨id, span, parameters, body⟩
    refine List.mem_filter.2 ⟨member, ?_⟩
    rw [Bool.not_eq_true', ← Bool.not_eq_true, List.contains_iff_mem]
    exact outside

namespace Surroundings.Hold

theorem part (hold : c.Hold around span targets sets) (within : span.contains inner = true)
    (fewer : ∀ t ∈ targets', t ∈ targets) (fewer' : ∀ n ∈ sets', n ∈ sets) :
    c.Hold around inner targets' sets' :=
  ⟨fun t member => hold.method t (fewer t member),
    fun l member => (hold.loops l member).within within, hold.blocks.mono fewer'⟩

theorem after (hold : c.Hold around span targets sets) (names : List String) :
    c.Hold (assignInnermost names around) span targets sets :=
  ⟨hold.method, hold.loops, hold.blocks.after names⟩

theorem inLoop {l : LoopAround} (hold : c.Hold around span targets sets)
    (holds : l.Holds c.method span) : (c.inLoop l).Hold around span targets sets :=
  ⟨hold.method, List.forall_mem_cons.2 ⟨holds, hold.loops⟩, hold.blocks⟩

/-- The statements in a span are held one by one. -/
theorem each {es : List Expr} (hold : c.Hold around span (listTargets es) (listWrites es))
    (within : ∀ e ∈ es, span.contains e.span = true) :
    ∀ e ∈ es, c.Hold around e.span e.targets e.writes :=
  fun e member => hold.part (within e member) (fun _ inner => mem_listTargets.2 ⟨e, member, inner⟩)
    fun _ inner => mem_listWrites.2 ⟨e, member, inner⟩

/-- Around the statements of a method there is no loop and no block. -/
theorem ofBody (parameters : List String) (body : List Expr) :
    ∀ e ∈ body, (⟨[], body⟩ : Surroundings).Hold [LexicalScope.ofBody parameters] e.span e.targets
      e.writes :=
  fun e member => ⟨fun _ inner => mem_listTargets.2 ⟨e, member, inner⟩, List.forall_mem_nil _,
    .ofBody parameters⟩

end Surroundings.Hold

mutual

/-- Every block in nested spans is held by what stands around it. -/
theorem Expr.sites_held {c : Surroundings} {around : List LexicalScope} : ∀ e : Expr, e.Nested →
    c.Hold around e.span e.targets e.writes → ∀ site ∈ e.sites c around, site.Held
  | ⟨_, _, form⟩, .intro own parts bodies => form.sites_held own parts bodies

theorem Form.sites_held {c : Surroundings} {around : List LexicalScope} {span : Span} : ∀ f : Form,
    f.Fits span → (∀ d ∈ f.parts, d.Nested) → (∀ m ∈ f.methods, ∀ d ∈ m.body, d.Nested) →
      c.Hold around span f.targets f.writes → ∀ site ∈ f.sites span c around, site.Held
  | .literal _, _, _, _, _ | .read _, _, _, _, _ | .self, _, _, _, _ | .defLib _, _, _, _, _ =>
    List.forall_mem_nil _
  | .assign _ _ value, fits, nested, _, hold =>
    value.sites_held (nested value (List.mem_singleton.2 rfl))
      (hold.part (fits.parts value (List.mem_singleton.2 rfl)) (fun _ => List.mem_append_left _)
        fun _ => List.mem_append_left _)
  | .call receiver _ _ arguments none, fits, nested, _, hold => by
    have parts := fits.parts
    simp only [Form.parts, List.forall_mem_append] at nested parts
    simp only [Form.targets, Form.writes] at hold
    simp only [Form.sites, List.forall_mem_append]
    refine ⟨⟨optionSites_held receiver nested.1.1 parts.1.1 (hold.part span.contains_refl ?_ ?_),
      listSites_held arguments nested.1.2
        (((hold.part span.contains_refl ?_ ?_).after _).each parts.1.2)⟩, List.forall_mem_nil _⟩
    all_goals
      intro _ member
      simp [member]
  | .call receiver _ _ arguments (some ⟨id, place, parameters, body⟩), fits, nested, _, hold => by
    have parts := fits.parts
    have lays := fits.lays
    simp only [Form.parts, List.forall_mem_append] at nested parts
    simp only [Form.targets, Form.writes] at hold
    simp only [Form.sites, blockSites, List.forall_mem_append, List.forall_mem_cons]
    have block : c.Hold around place (listTargets body)
        (blockWrites (some ⟨id, place, parameters, body⟩)) := hold.part lays.1
      (fun _ member => List.mem_append_right _ member) fun _ member => List.mem_append_right _ member
    have entered := block.after (optionAssigns receiver ++ listAssigns arguments)
    refine ⟨⟨optionSites_held receiver nested.1.1 parts.1.1 (hold.part span.contains_refl ?_ ?_),
      listSites_held arguments nested.1.2
        (((hold.part span.contains_refl ?_ ?_).after _).each parts.1.2)⟩,
      ⟨entered.loops, entered.blocks⟩, listSites_held body nested.2
        (Surroundings.Hold.each ⟨entered.method, entered.loops, entered.blocks.ofBlock⟩ lays.2)⟩
    all_goals
      intro _ member
      simp [member]
  | .yield arguments, fits, nested, _, hold => listSites_held arguments nested (hold.each fits.parts)
  | .return value, fits, nested, _, hold | .break value, fits, nested, _, hold =>
    optionSites_held value nested fits.parts hold
  | .conditional _ condition consequent alternative, fits, nested, _, hold => by
    have parts := fits.parts
    simp only [Form.parts, List.forall_mem_append, List.forall_mem_cons] at nested parts
    simp only [Form.targets, Form.writes] at hold
    simp only [Form.sites, List.forall_mem_append]
    refine ⟨⟨condition.sites_held nested.1.1 (hold.part parts.1.1 ?_ ?_),
      listSites_held consequent nested.1.2
        (((hold.part span.contains_refl ?_ ?_).after _).each parts.1.2)⟩,
      bodySites_held alternative nested.2 parts.2 ((hold.part span.contains_refl ?_ ?_).after _)⟩
    all_goals
      intro _ member
      simp [member]
  | .while condition body, fits, nested, _, hold => by
    have parts := fits.parts
    have lays := fits.lays
    have holds : LoopAround.Holds ⟨span, condition, body, false⟩ c.method condition.span :=
      .of_nested hold.method parts nested fun _ => lays
    have holds' : LoopAround.Holds ⟨span, condition, body, true⟩ c.method span :=
      .of_nested hold.method parts nested nofun
    simp only [Form.parts, List.forall_mem_cons] at nested parts
    simp only [Form.sites, List.forall_mem_append]
    refine ⟨condition.sites_held nested.1 ((hold.part parts.1 ?_ ?_).inLoop holds),
      listSites_held body nested.2
        ((((hold.part span.contains_refl ?_ ?_).after _).inLoop holds').each parts.2)⟩
    all_goals
      intro _ member
      simp [Form.targets, Form.writes, member]
  | .logical _ left right, fits, nested, _, hold => by
    have parts := fits.parts
    simp only [Form.parts, List.forall_mem_cons] at nested parts
    simp only [Form.targets, Form.writes] at hold
    simp only [Form.sites, List.forall_mem_append]
    refine ⟨left.sites_held nested.1 (hold.part parts.1 ?_ ?_),
      right.sites_held nested.2.1 ((hold.part parts.2.1 ?_ ?_).after _)⟩
    all_goals
      intro _ member
      simp [member]
  | .not operand, fits, nested, _, hold =>
    operand.sites_held (nested operand (List.mem_singleton.2 rfl))
      (hold.part (fits.parts operand (List.mem_singleton.2 rfl)) (fun _ => id) fun _ => id)
  | .defMethod m, _, _, bodies, _ => m.sites_held (bodies m (List.mem_singleton.2 rfl))
  | .defClass ⟨_, _, _, _, methods⟩, _, _, bodies, _ => methodsSites_held methods bodies

theorem MethodDef.sites_held : ∀ m : MethodDef, (∀ d ∈ m.body, d.Nested) →
    ∀ site ∈ m.sites, site.Held
  | ⟨_, _, _, parameters, body⟩, nested =>
    listSites_held body nested (.ofBody (parameters.map (·.name)) body)

theorem methodsSites_held : ∀ ms : List MethodDef, (∀ m ∈ ms, ∀ d ∈ m.body, d.Nested) →
    ∀ site ∈ methodsSites ms, site.Held
  | [], _ => List.forall_mem_nil _
  | m :: ms, bodies => by
    rw [List.forall_mem_cons] at bodies
    exact List.forall_mem_append.2 ⟨m.sites_held bodies.1, methodsSites_held ms bodies.2⟩

theorem listSites_held {c : Surroundings} {around : List LexicalScope} : ∀ es : List Expr,
    (∀ e ∈ es, e.Nested) → (∀ e ∈ es, c.Hold around e.span e.targets e.writes) →
      ∀ site ∈ listSites c around es, site.Held
  | [], _, _ => List.forall_mem_nil _
  | e :: es, nested, hold => by
    rw [List.forall_mem_cons] at nested hold
    exact List.forall_mem_append.2 ⟨e.sites_held nested.1 hold.1,
      listSites_held es nested.2 fun d member => (hold.2 d member).after _⟩

theorem optionSites_held {c : Surroundings} {around : List LexicalScope} {span : Span} :
    ∀ e : Option Expr, (∀ d ∈ e.toList, d.Nested) → (∀ d ∈ e.toList, span.contains d.span = true) →
      c.Hold around span (optionTargets e) (optionWrites e) → ∀ site ∈ optionSites c around e, site.Held
  | none, _, _, _ => List.forall_mem_nil _
  | some e, nested, within, hold =>
    e.sites_held (nested e (List.mem_singleton.2 rfl))
      (hold.part (within e (List.mem_singleton.2 rfl)) (fun _ => id) fun _ => id)

theorem bodySites_held {c : Surroundings} {around : List LexicalScope} {span : Span} :
    ∀ es : Option (List Expr), (∀ e ∈ es.getD [], e.Nested) →
      (∀ e ∈ es.getD [], span.contains e.span = true) →
        c.Hold around span (bodyTargets es) (bodyWrites es) → ∀ site ∈ bodySites c around es, site.Held
  | none, _, _, _ => List.forall_mem_nil _
  | some es, nested, within, hold => listSites_held es nested (hold.each within)

end

/-- In a program with nested spans, what stands around a block holds it. -/
theorem programSites_held {bodies : List (List Expr)}
    (nested : ∀ body ∈ bodies, ∀ e ∈ body, e.Nested) : ∀ site ∈ programSites bodies, site.Held := by
  refine listSites_held _ (fun e member => ?_) (.ofBody [] _)
  obtain ⟨body, given, statement⟩ := List.mem_flatten.1 member
  exact nested body given e statement

end Holding

end TypedBlocks

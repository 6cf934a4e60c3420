import TypedBlocks.Proofs.FilledSlots
import TypedBlocks.Proofs.FixedTables
import TypedBlocks.Proofs.PlainReceivers

/-!
# Definite assignment in elaborated code

Elaboration tracks which variables are assigned on all paths, forgets those of a scope when it enters
the scope, and joins nil to the type of every variable that it reads unassigned. The code of each
construct obeys the rules of definite assignment if its parts do.
-/
namespace TypedBlocks.Inference

open Typed (InstanceId SlotId Slot SlotSet DefiniteInOrder)
open Pass

/-- An elaboration whose code reads only what is assigned or can be nil. -/
structure Elaborate.Assigning (cx : Setting) (elaborate : Elaborate) : Prop where
  growing : elaborate.Growing
  knowing : elaborate.Knowing cx .all
  constants : ∀ here e s l s', e.isConstant = true → elaborate here e s = some (l, s') →
    s'.errors = [] → s' = s
  makes : ∀ live root here A e s l s', s.Ready cx live root here → s.Covered live A here →
    elaborate here e s = some (l, s') → s'.errors = [] →
      Makes cx live root here A A s [l.code] s'

section Constructs

variable {cx : Setting} {live : LiveScopes} {root : LevelKind} {elaborate : Elaborate}
  {here : Place} {A : SlotSet} {s s' : PassState} {l : Elaborated}
  (assigning : elaborate.Assigning cx) (ready : s.Ready cx live root here)
  (covered : s.Covered live A here) (sound : s'.errors = [])

include assigning ready covered sound

theorem Elaborate.Assigning.run {e : Expr} (h : elaborate here e s = some (l, s')) :
    Makes cx live root here A A s [l.code] s' ∧ l.Known .all :=
  ⟨assigning.makes _ _ _ _ _ _ _ _ ready covered h sound,
    (assigning.knowing _ _ _ _ _ trivial ready.place ready.known h).2⟩

section Sequences

theorem elaborateParts_makes {before ends : Completions} {es : List Expr}
    {codes : List Typed.Expr} (falls : before.fallsThrough = true)
    (h : elaborateParts elaborate here before es s = some ((codes, ends), s')) :
    Makes cx live root here A A s codes s' ∧ (∀ c, codes = [c] → c.ty = ends.normal) ∧
      (ends.fallsThrough = true → ∀ c ∈ codes, c.ty.isSome = true) := by
  induction es generalizing before codes s A with
  | nil =>
    obtain ⟨rfl, -, rfl⟩ := elaborateParts_nil_steps h
    exact ⟨.nil ready covered, nofun, fun _ => nofun⟩
  | cons e es ih =>
    obtain ⟨first, s₁, run, rest⟩ := elaborateParts_cons_steps h
    have reached := Completions.andThen_normal first.ends falls
    rcases rest with ⟨fallsOn, rest, runRest, rfl⟩ | ⟨stops, rfl, rfl, rfl⟩
    · have grows := elaborateParts_grows assigning.growing runRest
      obtain ⟨makes, known⟩ := assigning.run ready covered (grows.no_errors sound) run
      have ready₁ := makes.moves.ready
      have covered₁ := covered.after ready₁ makes.moves.grows
      obtain ⟨makesRest, -, typed⟩ := ih ready₁ covered₁ fallsOn runRest
      have firstTy : first.code.ty = (before.andThen first.ends).normal :=
        known.typed.trans reached.symm
      refine ⟨makes.cons makesRest, fun c only => ?_, fun through => ?_⟩
      · obtain ⟨rfl, rfl⟩ := List.cons.inj only
        cases es with
        | nil =>
          obtain ⟨-, rfl, -⟩ := elaborateParts_nil_steps runRest
          exact firstTy
        | cons d es =>
          obtain ⟨_, _, -, ⟨-, _, -, impossible⟩ | ⟨-, impossible, -⟩⟩ :=
            elaborateParts_cons_steps runRest <;> cases impossible
      · exact List.forall_mem_cons.2 ⟨firstTy ▸ fallsOn, typed through⟩
    · obtain ⟨makes, known⟩ := assigning.run ready covered sound run
      refine ⟨makes, fun c only => ?_, fun through => ?_⟩
      · cases only
        rw [reached, known.typed]
      · rw [stops] at through
        cases through

theorem elaborateBody_makes {body : List Expr}
    (h : elaborateBody elaborate here body s = some (l, s')) :
    Makes cx live root here A A s [l.code] s' ∧ l.Known .all := by
  refine ⟨?_, (elaborateBody_known assigning.knowing ready.place ready.known
    (fun _ _ => trivial) h).2⟩
  rcases elaborateBody_steps h with ⟨-, rfl, rfl⟩ | ⟨-, parts, ends, run, rfl⟩
  · exact (Makes.nil ready covered).ordered rfl
  · obtain ⟨makes, single, -⟩ := elaborateParts_makes assigning ready covered sound rfl run
    exact makes.ofParts single

/-- Operands that stop early stand for the whole. -/
theorem stopped_makes {es : List Expr} {codes : List Typed.Expr} {ends : Completions}
    (h : elaborateParts elaborate here (Completions.ofNormal Ty.nil) es s = some ((codes, ends), s'))
    (stops : ends.fallsThrough = false) :
    Makes cx live root here A A s [Typed.Expr.ofParts codes none] s' := by
  obtain ⟨makes, single, -⟩ := elaborateParts_makes assigning ready covered sound rfl h
  have none : ends.normal = none := by simpa [Completions.fallsThrough] using stops
  exact makes.ofParts (none ▸ single)

end Sequences

section Leaves

omit assigning in
theorem elaborateRead_makes {e : Expr} {v : Variable} (form : e.form = .read v)
    (h : elaborateRead cx here e.span v s = some (l, s')) :
    Makes cx live root here A A s [l.code] s' := by
  obtain ⟨known', -⟩ :=
    elaborateRead_known (Vocabulary.all_covers cx) ready.place ready.known trivial form h
  rcases elaborateRead_steps h with ⟨-, rfl, rfl⟩ | ⟨e, -, -, failed⟩ | ⟨-, c, -, rfl, rfl⟩ |
    ⟨-, rfl, rfl⟩ | ⟨-, -, rfl, rfl⟩ | ⟨-, rfl, rfl⟩
  · have scope := ready.place.scopeVar v.name
    have grows : s.Grows (readLocal cx here.activation v.name s) := readLocal_grows _ _
    have back {x : SlotId} (filled : (readLocal cx here.activation v.name s).Filled live x) :=
      ready.filled_back known' grows (fun _ => id) filled
    refine
      { moves := .of_step ready grows known' rfl rfl fun _ => .inl
        definite := .cons (.slot ?_ fun _ => id) (.nil fun x after =>
          after.elim id fun filled => covered.filled x (back filled))
        loose := List.forall_mem_cons.2 ⟨Makes.loose_parts nofun nofun, nofun⟩ }
    -- Either the variable is assigned and never nil, or its type has nil by now.
    by_cases nilable : (readLocal cx here.activation v.name s).Nilable
        ⟨(here.activation.scopeOf cx.captures v.name).1, v.name⟩
    · obtain ⟨t, entry, below⟩ := nilable
      refine .inr ⟨t, ?_, below⟩
      rw [entry]
      rfl
    · have assigned : s.assigned.any
          (· == ⟨(here.activation.scopeOf cx.captures v.name).1, v.name⟩) = true := by
        by_contra unassigned
        refine nilable ?_
        simp only [PassState.Nilable, readLocal, unassigned, if_false]
        exact extendAt_covers _ scope.beq_self
          (fun e member => (ready.known.tables.vars.each e member).1.1.beq_comm scope)
          (fun e member => (ready.known.tables.vars.each e member).2) .nil
      obtain ⟨k, member, same⟩ := List.any_eq_true.1 assigned
      have key := ready.keys k member
      have kind := (ScopeVar.beq_iff key.known.proper scope.proper).1 same
      exact .inl (covered.filled _ (ready.known.filled_earlier known' grows member key scope kind
        covered.lives.scopeOf nilable (FrameSlots.find?_lookedUp scope.beq_self _)))
  · exact (no_failure sound failed).elim
  all_goals exact (Makes.nil ready covered).ordered rfl

theorem elaborateAssignment_makes {e : Expr} {v : Variable} {span : Span} {value : Expr}
    (form : e.form = .assign v span value)
    (h : elaborateAssignment cx elaborate here e.span v value s = some (l, s')) :
    Makes cx live root here A A s [l.code] s' := by
  obtain ⟨known', -⟩ := elaborateAssignment_known (Vocabulary.all_covers cx) assigning.knowing
    ready.place ready.known trivial form h
  obtain ⟨first, s₁, run, ⟨-, rfl, rfl⟩ | ⟨t, normal, rest⟩⟩ := elaborateAssignment_steps h
  · exact assigning.makes _ _ _ _ _ _ _ _ ready covered run sound
  · have grows : s₁.Grows s' := by
      rcases rest with ⟨-, -, rfl⟩ | ⟨-, -, -, rfl⟩ | ⟨-, c, -, -, rfl⟩ | ⟨-, -, rfl⟩ | ⟨-, -, rfl⟩
      · exact assignLocal_grows _ _ _
      · exact grows_with_error _ _
      · exact grows_tables _ (.extendLayout _ _ _ _)
      · exact grows_tables _ (.extendGlobal _ _ _)
      · exact grows_tables _ (.extendConstant _ _ _)
    have makes := assigning.makes _ _ _ _ _ _ _ _ ready covered run (grows.no_errors sound)
    have ready₁ := makes.moves.ready
    have stays {ty : Option Ty} {node : Typed.Node} (methods : s'.methods = s₁.methods)
        (instances : s'.instances = s₁.instances) (assigned : s'.assigned = s₁.assigned)
        (ordered : node.ordered? = some [first.code]) :
        Makes cx live root here A A s [⟨ty, node⟩] s' :=
      (makes.after (.of_step ready₁ grows known' methods instances fun k member =>
        .inl (assigned ▸ member)) fun x filled => .inr
          (ready₁.filled_back known' grows (fun k member => assigned ▸ member) filled)).ordered
        ordered
    rcases rest with ⟨-, rfl, rfl⟩ | ⟨-, -, -, failed⟩ | ⟨-, c, object, rfl, rfl⟩ | ⟨-, rfl, rfl⟩ |
      ⟨-, rfl, rfl⟩
    · have scope := ready.place.scopeVar v.name
      have found : (assignLocal cx here.activation v.name t s₁).frame.find?
          ⟨(here.activation.scopeOf cx.captures v.name).1, v.name⟩ = some (s₁.frame.slotFor
            ⟨(here.activation.scopeOf cx.captures v.name).1, v.name⟩).1 :=
        FrameSlots.find?_lookedUp scope.beq_self _
      have level := ready.rooted (pathKind (here.activation.scopeOf cx.captures v.name).1)
        covered.lives.scopeOf
      have moves : Moves cx live root here s₁ (assignLocal cx here.activation v.name t s₁) := by
        refine .of_step ready₁ grows known' rfl rfl fun k member => ?_
        rcases mem_marked member with old | rfl
        · exact .inl old
        · exact .inr ⟨⟨scope, ⟨root, level, ready₁.root⟩, fun _ => ⟨_, found⟩⟩, level⟩
      refine
        { moves := makes.moves.trans moves
          definite := .cons (.assign makes.alone fun x after => ?_) (.nil fun _ => id)
          loose := List.forall_mem_cons.2
            ⟨Makes.loose_parts (fun d part x empties => ?_) nofun, nofun⟩ }
      · rcases after with before | ⟨k, member, there, never, seat⟩
        · exact .inr (.inl before)
        · rcases mem_marked member with old | rfl
          · exact .inr (.inr (ready₁.known.filled_earlier known' grows old (ready₁.keys k old)
              (ready₁.keys k old).known rfl there never seat))
          · exact .inl (Option.some.inj (seat.symm.trans found))
      · cases List.mem_singleton.1 part
        exact (makes.loose _ List.mem_cons_self x empties).mono grows.labels fun _ => id
    · exact (no_failure sound failed).elim
    all_goals exact stays rfl rfl rfl rfl

end Leaves

section Control

theorem elaborateExit_makes {e : Expr} {keyword : String} {value : Option Expr}
    (h : elaborateExit cx elaborate here e.id e.span keyword value s = some (l, s')) :
    Makes cx live root here A A s [l.code] s' := by
  obtain ⟨first, s₁, run, rest⟩ := elaborateExit_steps h
  have valueMakes (sound : s₁.errors = []) : Makes cx live root here A A s [first.code] s₁ := by
    cases value with
    | none =>
      obtain ⟨rfl, rfl⟩ := pure_eq_some.1 run
      exact (Makes.nil ready covered).ordered rfl
    | some d => exact assigning.makes _ _ _ _ _ _ _ _ ready covered run sound
  rcases rest with ⟨-, rfl, rfl⟩ | ⟨t, -, ⟨f, -, rfl, rfl⟩ | ⟨b, -, rfl, rfl⟩ | ⟨-, -, failed⟩⟩
  · exact valueMakes sound
  · exact (valueMakes sound).ordered rfl
  · exact (valueMakes sound).ordered rfl
  · exact (no_failure sound failed).elim

theorem elaborateNot_makes {operand : Expr}
    (h : elaborateNot elaborate here operand s = some (l, s')) :
    Makes cx live root here A A s [l.code] s' := by
  obtain ⟨first, run, ⟨-, rfl⟩ | ⟨-, rfl⟩⟩ := elaborateNot_steps h
  · exact assigning.makes _ _ _ _ _ _ _ _ ready covered run sound
  · exact (assigning.makes _ _ _ _ _ _ _ _ ready covered run sound).ordered rfl

theorem elaborateConditional_makes {kind : ConditionKind} {condition : Expr}
    {consequent : List Expr} {alternative : Option (List Expr)}
    (h : elaborateConditional elaborate here kind condition consequent alternative s =
      some (l, s')) : Makes cx live root here A A s [l.code] s' := by
  obtain ⟨c, s₁, run, ⟨-, rfl, rfl⟩ | ⟨-, first, s₂, second, s₃, runFirst, runSecond, rfl,
    rfl⟩⟩ := elaborateConditional_steps h
  · exact assigning.makes _ _ _ _ _ _ _ _ ready covered run sound
  · have sound₃ : s₃.errors = [] := sound
    have grows₃ := elaborateBody_grows assigning.growing runSecond
    have between := grows_assigned s₂ s₁.assigned
    have sound₂ : s₂.errors = [] := (between.trans grows₃).no_errors sound₃
    have grows₂ := elaborateBody_grows assigning.growing runFirst
    have makes := assigning.makes _ _ _ _ _ _ _ _ ready covered run (grows₂.no_errors sound₂)
    have ready₁ := makes.moves.ready
    have covered₁ := covered.after ready₁ makes.moves.grows
    obtain ⟨makesFirst, knownFirst⟩ := elaborateBody_makes assigning ready₁ covered₁ sound₂ runFirst
    -- The second branch starts with what is assigned after the condition.
    have again : Moves cx live root here s₁ { s₂ with assigned := s₁.assigned } :=
      makesFirst.moves.withAssigned ((Moves.refl ready₁).earlier grows₂)
    obtain ⟨makesSecond, knownSecond⟩ :=
      elaborateBody_makes assigning again.ready (covered₁.again ready₁ again) sound₃ runSecond
    have moves₃ := again.trans makesSecond.moves
    have paths : ∀ p ∈ [(first.ends.fallsThrough, s₂.assigned),
        (second.ends.fallsThrough, s₃.assigned)], ∀ k ∈ p.2,
          KeyReady cx live s₃ k ∧ Brought root s₁ k :=
      List.forall_mem_cons.2 ⟨makesFirst.moves.earlier (between.trans grows₃),
        List.forall_mem_cons.2 ⟨moves₃.earlier (.refl s₃), (by rintro _ ⟨⟩)⟩⟩
    have after := moves₃.withAssigned
      (assignedAfter_all _ ((Moves.refl ready₁).earlier moves₃.grows) paths)
    -- A variable that is assigned after both branches is assigned after one that falls through.
    have back {b : Elaborated} {s₀ : PassState} (moves : Moves cx live root here s₁ s₀)
        (grows : s₀.Grows s₃) (path : (b.ends.fallsThrough, s₀.assigned) ∈
          [(first.ends.fallsThrough, s₂.assigned), (second.ends.fallsThrough, s₃.assigned)])
        (known : b.Known .all) (falls : b.code.ty.isSome) {x : SlotId}
        (inside : After live A
          { s₃ with
            assigned := assignedAfter s₁.assigned
              [(first.ends.fallsThrough, s₂.assigned),
                (second.ends.fallsThrough, s₃.assigned)] } x) :
        After live (After live A s₁) s₀ x := by
      rw [known.typed] at falls
      exact inside.imp .inl
        (moves.filled_path after.ready moves₃.ready.known grows path falls rfl)
    have one := back (b := first) makesFirst.moves (between.trans grows₃) (by simp) knownFirst
    have other := back (b := second) moves₃ (.refl s₃) (by simp) knownSecond
    have loose (d : Typed.Expr) (among : d = c.code ∨ d = first.code ∨ d = second.code)
        (x : SlotId) (empties : d.Empties x) : s₃.frame.Loose live x := by
      rcases among with rfl | rfl | rfl
      · exact makes.loose_later moves₃.grows _ List.mem_cons_self x empties
      · exact makesFirst.loose_later (between.trans grows₃) _ List.mem_cons_self x empties
      · exact makesSecond.loose _ List.mem_cons_self x empties
    refine ⟨makes.moves.trans after, .cons ?_ (.nil fun _ => id),
      List.forall_mem_cons.2 ⟨Makes.loose_parts (fun d part => loose d ?_) ?_, (by rintro _ ⟨⟩)⟩⟩
    · cases kind with
      | «if» =>
        exact .conditional makes.alone makesFirst.alone makesSecond.alone
          (fun falls x => one falls) fun falls x => other falls
      | «unless» =>
        exact .conditional makes.alone makesSecond.alone makesFirst.alone
          (fun falls x => other falls) fun falls x => one falls
    · cases kind <;>
        simp only [branches, Typed.Node.parts, Typed.Node.operands, Typed.Node.landing?,
          List.mem_cons, Option.toList_none, List.map_nil, List.append_nil, List.not_mem_nil,
          or_false] at part
      · exact part
      · exact part.imp_right Or.symm
    · cases kind <;> rintro _ ⟨⟩

theorem elaborateWhile_makes {node : NodeId} {condition : Expr} {body : List Expr}
    (h : elaborateWhile elaborate here node condition body s = some (l, s')) :
    Makes cx live root here A A s [l.code] s' := by
  obtain ⟨c, s₁, run, ⟨-, rfl, rfl⟩ | ⟨-, b, s₂, runBody, rfl, rfl⟩⟩ := elaborateWhile_steps h
  · exact assigning.makes _ _ _ _ _ _ _ _ ready covered run sound
  · have sound₂ : s₂.errors = [] := sound
    have grows₂ := (grows_loop s₁).trans (elaborateBody_grows assigning.growing runBody)
    have makes := assigning.makes _ _ _ _ _ _ _ _ ready covered run (grows₂.no_errors sound₂)
    have ready₁ := makes.moves.ready
    have covered₁ := covered.after ready₁ makes.moves.grows
    have counts : Moves cx live root here s₁ { s₁ with nextLoop := s₁.nextLoop + 1 } :=
      .of_step ready₁ (grows_loop s₁) { ready₁.known with } rfl rfl fun _ => .inl
    have inside : PassState.Ready cx live root (here.inLoop node ⟨s₁.nextLoop⟩)
        { s₁ with nextLoop := s₁.nextLoop + 1 } :=
      { counts.ready with
        place := ready₁.place.inLoop node ⟨s₁.nextLoop⟩
        innermost := ready₁.innermost }
    have coveredBody : PassState.Covered live (After live A s₁) (here.inLoop node ⟨s₁.nextLoop⟩)
        { s₁ with nextLoop := s₁.nextLoop + 1 } :=
      { covered₁ with
        lives := covered₁.lives.withTarget _ _
        filled := fun x filled => .inr filled }
    obtain ⟨makesBody, -⟩ := elaborateBody_makes assigning inside coveredBody sound₂ runBody
    have moves₂ := counts.trans (makesBody.moves.at_place ready₁.place ready₁.innermost)
    have after := moves₂.withAssigned ((Moves.refl ready₁).earlier grows₂)
    have looseTest := makes.loose_later grows₂ _ List.mem_cons_self
    have looseBody := makesBody.loose _ List.mem_cons_self
    refine ⟨makes.moves.trans after, .cons (.while makes.alone makesBody.alone (fun x before => ?_)
      fun x inside => ?_) (.nil fun _ => id),
      List.forall_mem_cons.2 ⟨Makes.loose_parts (fun d part => ?_) nofun, nofun⟩⟩
    -- Slots of live scopes are not emptied in a round of the loop.
    · have kept := covered₁.kept_later grows₂ (.inl before)
      exact ⟨fun empties => kept.not_loose (looseTest x empties),
        fun empties => kept.not_loose (looseBody x empties)⟩
    · have back := ready₁.after_again after inside
      exact ⟨back, fun empties =>
        (covered₁.kept_later grows₂ back).not_loose (looseBody x empties)⟩
    · have among : d = c.code ∨ d = b.code := by
        simpa [Typed.Node.parts, Typed.Node.operands, Typed.Node.landing?] using part
      rcases among with rfl | rfl
      · exact looseTest
      · exact looseBody

theorem elaborateLogical_makes {connective : Connective} {left right : Expr}
    (h : elaborateLogical elaborate here connective left right s = some (l, s')) :
    Makes cx live root here A A s [l.code] s' := by
  obtain ⟨first, s₁, run, ⟨-, rfl, rfl⟩ | ⟨t, second, s₂, -, runRight, rfl, rfl⟩⟩ :=
    elaborateLogical_steps h
  · exact assigning.makes _ _ _ _ _ _ _ _ ready covered run sound
  · have grows₂ := assigning.growing _ _ _ _ _ runRight
    have makes := assigning.makes _ _ _ _ _ _ _ _ ready covered run (grows₂.no_errors sound)
    have ready₁ := makes.moves.ready
    have covered₁ := covered.after ready₁ makes.moves.grows
    have makesRight := assigning.makes _ _ _ _ _ _ _ _ ready₁ covered₁ runRight sound
    have after := makesRight.moves.withAssigned ((Moves.refl ready₁).earlier grows₂)
    have loose := makesRight.loose _ List.mem_cons_self
    have back (x : SlotId) (inside : After live A { s₂ with assigned := s₁.assigned } x) :
        After live A s₁ x ∧ ¬ second.code.Empties x := by
      have before := ready₁.after_again after inside
      exact ⟨before, fun empties =>
        (covered₁.kept_later grows₂ before).not_loose (loose x empties)⟩
    refine ⟨makes.moves.trans after, ?_, ?_⟩
    · cases connective with
      | and => exact .cons (.and makes.alone makesRight.alone back) (.nil fun _ => id)
      | or => exact .cons (.or makes.alone makesRight.alone back) (.nil fun _ => id)
    · refine List.forall_mem_cons.2 ⟨Makes.loose_parts (fun d part => ?_) ?_, (by rintro _ ⟨⟩)⟩
      · have among : d = first.code ∨ d = second.code := by
          cases connective <;>
            simpa [connectiveNode, Typed.Node.parts, Typed.Node.operands, Typed.Node.landing?]
              using part
        rcases among with rfl | rfl
        · exact makes.loose_later grows₂ _ List.mem_cons_self
        · exact loose
      · cases connective <;> rintro _ ⟨⟩

end Control

section Methods

omit assigning ready covered sound in
/-- A method that has not been met is not listed. -/
theorem not_lists_of_absent {key : Instantiation} (known : s.Known cx .all)
    (callee : key.Known cx .all) (absent : s.instances.lookup key = none) :
    ¬ s.Lists (.instance key.kind) := by
  rintro (main | ⟨e, member, same⟩)
  · cases main
  · have kinds : key.kind = e.1.kind := LevelKind.instance.inj same
    have turned := (Instantiation.beq_iff callee.proper (known.instances.each e member).1.proper).2
      kinds
    have differs := List.lookup_eq_none_iff.1 absent e member
    rw [bne, turned] at differs
    cases differs

omit covered in
/-- A method brings in no variables of the one at hand, and is definite when the call that has made
it present is done. -/
theorem elaborateMethod_moves {depth : Nat} (shallow : depth ≤ cx.limits.maxInlineDepth)
    {key : Instantiation} (callee : key.Known cx .all) {number : InstanceId}
    (h : elaborateMethod cx elaborate depth key s = some (number, s')) :
    Moves cx live root here s s' ∧ ∀ x, s'.Filled live x → s.Filled live x := by
  have grows := elaborateMethod_grows assigning.growing h
  have known' := elaborateMethod_known_types (Vocabulary.all_covers cx) assigning.knowing
    ready.known shallow callee h
  rcases elaborateMethod_steps h with ⟨-, rfl⟩ | ⟨absent, -, ⟨missing, -⟩ | ⟨m, parameters, s₁,
    body, s₂, found, bound, run, rfl⟩⟩
  · exact ⟨.refl ready, fun _ => id⟩
  · obtain ⟨m, found, -⟩ := callee.arity
    rw [missing] at found
    cases found
  · have sound₂ : s₂.errors = [] := sound
    have placeBody := methodPlace_known callee m shallow s
    have path := placeBody.activation.path.mono shallow
    have self : ScopeVar.Known cx .all ⟨[.instance key], "self"⟩ := path
    have entered := enteredMethod_known ready.known callee absent path
    have known₁ := entered.bindVars path (fun _ _ => trivial) callee.arguments bound
    have grows₁ := bindVars_grows bound
    have new := not_lists_of_absent ready.known callee absent
    have first : (enteredMethod key s).Lists (.instance key.kind) :=
      .inr ⟨_, List.mem_append_right _ List.mem_cons_self, rfl⟩
    have later {level : LevelKind} (lists : s.Lists level) : s₁.Lists level :=
      lists.imp_right fun ⟨e, member, same⟩ =>
        ⟨e, grows₁.instances.subset (List.mem_append_left _ member), same⟩
    have binds := bindVars_binds path entered callee.arguments bound
    have holds := (selfBound_holds (t := key.selfType) FrameSlots.Keyed.empty self).mono grows₁.labels
    obtain ⟨ready₁, covered₁⟩ := ready_of_root (.instance key) placeBody known₁ rfl rfl
      (first.mono grows₁) binds
      (fun k old => by
        obtain ⟨level, root, lists⟩ := (ready.keys k old).root
        refine ⟨level, root, later lists, ?_⟩
        rintro rfl
        exact new lists) holds
    obtain ⟨makes, -⟩ := elaborateBody_makes assigning ready₁ covered₁ sound₂ run
    have brought : ∀ k ∈ s₂.assigned, k ∈ s.assigned ∨
        ∃ level, k.root? = some level ∧ ¬ s.Lists level := by
      intro k member
      rcases makes.moves.brought k member with old | own | ⟨level, same, unlisted⟩
      · rcases binds.assigned k old with old | ⟨same, -⟩
        · exact .inl old
        · exact .inr ⟨_, congrArg (fun p => (pathKind p).getLast?) same, new⟩
      · exact .inr ⟨_, own, new⟩
      · exact .inr ⟨level, same, fun lists => unlisted (later lists)⟩
    -- Variables of live scopes are variables of the method at hand.
    have own {k : ScopeVar} (member : k ∈ s₂.assigned) (there : live (pathKind k.path)) :
        k ∈ s.assigned := by
      refine (brought k member).resolve_right ?_
      rintro ⟨level, same, unlisted⟩
      cases same.symm.trans (ready.rooted _ there)
      exact unlisted ready.root
    have finished : DefiniteMethod s.methods.size s₂.instances
        (madeMethod key m parameters body s s₂) := ⟨_, makes.alone⟩
    have size : (enteredMethod key s).methods.size = s.methods.size + 1 := by
      simp [enteredMethod, admitted]
    obtain ⟨methods, instances⟩ := bindVars_keeps bound
    refine ⟨⟨grows, { ready with known := known', root := ready.root.mono grows, keys := ?_ },
      .leftMethod (grows₁.trans makes.moves.grows) ((PassState.Finishes.of_same methods
        instances).trans definiteMethod_lasting makes.moves.finishes makes.moves.grows) finished trivial,
      fun k member => (brought k member).imp_right .inr⟩, fun x filled => ?_⟩
    · intro k member
      have key := makes.moves.ready.keys k member
      exact ⟨key.known, key.root, fun there => (ready.keys k (own member there)).seat there⟩
    · obtain ⟨k, member, there, never, found⟩ := filled
      have old := own member there
      exact ready.known.filled_earlier known' grows old (ready.keys k old) (ready.keys k old).known rfl
        there never found

/-- The slots of an expansion are emptied when it is entered, and its body starts with those of its
receiver and its arguments. -/
theorem expandCall_makes {A₀ : SlotSet} {call : CallSyntax} {m : MethodEntry} {key : Instantiation}
    {block : Block} {receiver : Typed.Expr} {arguments : List Typed.Expr}
    (callee : key.Known cx .all) (found : cx.definitions.method? key.method = some m)
    (arity : key.arguments.length = arguments.length)
    (operands : DefiniteInOrder A₀ (receiver :: arguments) A)
    (loose : ∀ c ∈ receiver :: arguments, ∀ x, c.Empties x → s.frame.Loose live x)
    (h : expandCall cx elaborate here call m key block receiver arguments s = some (l, s')) :
    Makes cx live root here A₀ A s [l.code] s' := by
  rcases expandCall_steps h with ⟨-, -, failed⟩ | ⟨shallow, parameters, s₁, body, s₂, bound, run,
    rfl, rfl⟩
  · exact (no_failure sound failed).elim
  · have sound₂ : s₂.errors = [] := sound
    have blockKnown : BlockKnown .all block := ⟨trivial, fun _ _ => trivial, fun _ _ => trivial⟩
    have placeBody : (expansionPlace here call m key block s).Known cx .all :=
      expansionPlace_known ready.place trivial callee blockKnown shallow m s
    have scope := placeBody.activation.path.mono placeBody.depth
    have proper : ProperPath (expansionPath here call key) := scope.proper
    have self : ScopeVar.Known cx .all ⟨expansionPath here call key, "self"⟩ := scope
    have entered : (enteredExpansion here call key s).Known cx .all :=
      enteredExpansion_known ready.known scope
    have known₁ := entered.bindVars scope (fun _ _ => trivial) callee.arguments bound
    have grows₁ := (enteredExpansion_grows here call key s).trans (bindVars_grows bound)
    have binds := bindVars_binds scope entered callee.arguments bound
    have admits : live.Admits (expansionPath here call key) := ready.innermost.admits _
    have rooted := rooted_cons (.inline call.id key) (ready.rooted _ covered.lives.path)
    have holds := (selfBound_holds (t := key.selfType) ready.known.slots self).mono
      (bindVars_grows bound).labels
    obtain ⟨n, found', same⟩ := callee.arity
    cases found.symm.trans found'
    have all : boundSlots parameters arguments = parameters :=
      boundSlots_all (by rw [bindVars_length bound same, arity])
    have wider (x : SlotId) (inside : A x) : x = (expansionSelf here call key s).1 ∨
        x ∈ boundSlots parameters arguments ∨ A x := .inr (.inr inside)
    obtain ⟨ready₁, covered₁⟩ := ready.enter covered placeBody known₁ grows₁ proper rooted
      (fun k member => by simpa using List.mem_filter.1 member) binds
      (covered.lives.expansion ready.innermost wider (.inl rfl) _ _ _)
      (fun q there within => admits.innermost there within) wider
      (fun x inside => by
        rcases inside with rfl | inside | inside
        · exact .inr ⟨_, holds⟩
        · exact .inr (binds.slots x (all ▸ inside))
        · exact .inl inside)
      (fun x inside _ _ _ _ _ => .inr (.inl (all.symm ▸ inside)))
    obtain ⟨makes, -⟩ := elaborateBody_makes assigning ready₁ covered₁ sound₂ run
    obtain ⟨methods, instances⟩ := bindVars_keeps bound
    have moves := Moves.leave ready grows₁ methods instances (fun k member => by
      rcases binds.assigned k member with old | ⟨same, -⟩
      · exact .inl (List.mem_filter.1 old).1
      · exact .inr ((congrArg (fun p => (pathKind p).getLast?) same).trans rooted)) makes.moves
    have grows := moves.grows
    have after : Moves cx live root here s { s₂ with
        assigned := if leavesEarly body s then s.assigned else s₂.assigned } := by
      refine moves.withAssigned fun k member => ?_
      split at member
      · exact (Moves.refl ready).earlier grows k member
      · exact moves.earlier (.refl s₂) k member
    have looseBody (x : SlotId) (empties : body.code.Empties x) : s₂.frame.Loose live x :=
      (makes.loose _ List.mem_cons_self x empties).mono (List.prefix_refl _) fun _ => .inl
    have before (early : leavesEarly body s = true) {x : SlotId} (inside : After live A { s₂ with
        assigned := if leavesEarly body s then s.assigned else s₂.assigned } x) : A x := by
      rw [early] at inside
      exact inside.elim id fun filled => covered.filled x
        (ready.filled_back (moves.ready.known.withAssigned ready.known.assigned)
          (grows.trans (grows_assigned _ _)) (fun _ => id) filled)
    refine ⟨after, .cons (.inline operands (fun x inside within => ?_) makes.alone
      (fun early x inside => ?_) fun _ x inside => ?_) (.nil fun _ => id),
      List.forall_mem_cons.2 ⟨Makes.loose_parts (fun d part => ?_) fun x within => ?_, (by rintro _ ⟨⟩)⟩⟩
    · exact (covered.kept_later grows inside).not_loose
        (makes.moves.ready.known.slots.slotsWithin_loose proper admits within)
    · have inside := before (by simpa [leavesEarly, madeExpansion, or_comm] using early) inside
      exact ⟨inside, fun empties =>
        (covered.kept_later grows inside).not_loose (looseBody x empties)⟩
    · by_cases early : leavesEarly body s = true
      · exact .inl (wider x (before early inside))
      · rw [Bool.eq_false_iff.2 early] at inside
        refine inside.imp (wider x) ?_
        rintro ⟨k, member, there, rest⟩
        exact ⟨k, member, .inl there, rest⟩
    · have among : d ∈ receiver :: arguments ∨ d = body.code := by
        simpa [Typed.Node.parts, Typed.Node.operands, Typed.Node.landing?, madeExpansion, or_assoc]
          using part
      rcases among with operand | rfl
      · exact fun x empties => (loose d operand x empties).mono grows.labels fun _ => id
      · exact looseBody
    · exact makes.moves.ready.known.slots.slotsWithin_loose proper admits within

end Methods

section Calls

variable {A₀ : SlotSet} {call : CallSyntax} {arguments operands : List Typed.Expr} {types : List Ty}

omit covered in
/-- A call of a method that runs in a frame of its own. -/
theorem Makes.called {depth : Nat} (shallow : depth ≤ cx.limits.maxInlineDepth)
    {key : Instantiation} (callee : key.Known cx .all) {number : InstanceId}
    (given : Makes cx live root here A₀ A s operands s)
    (h : elaborateMethod cx elaborate depth key s = some (number, s')) :
    Makes cx live root here A₀ A s operands s' := by
  obtain ⟨moves, filled⟩ := elaborateMethod_moves assigning ready sound shallow callee h
  exact given.after moves fun x inside => .inr (filled x inside)

variable (consistent : cx.definitions.Consistent)

theorem elaborateMethodCall_makes {m : MethodEntry} {receiver : Typed.Expr} {receiverType : Ty}
    (callee : (calledKey m receiverType types).Known cx .all)
    (found : cx.definitions.method? m.id = some m) (arity : types.length = arguments.length)
    (given : Makes cx live root here A₀ A s (receiver :: arguments) s)
    (bare : m.owner = none → Makes cx live root here A₀ A s arguments s)
    (h : elaborateMethodCall cx elaborate here call m receiver receiverType arguments types s =
      some (l, s')) : Makes cx live root here A₀ A s [l.code] s' := by
  have sent : Makes cx live root here A₀ A s (calledReceiver m receiver :: arguments) s := by
    rw [calledReceiver]
    split
    · exact given
    · rename_i global
      have bare := bare (by simpa using global)
      exact ⟨bare.moves, .cons (.ordered rfl (.nil fun _ => id)) bare.definite,
        List.forall_mem_cons.2 ⟨Makes.loose_parts (by rintro _ ⟨⟩) (by rintro _ ⟨⟩), bare.loose⟩⟩
  rcases elaborateMethodCall_steps h with ⟨-, block, -, expanded⟩ | ⟨-, -, -, failed⟩ |
    ⟨-, id, made, rfl⟩
  · exact expandCall_makes assigning ready covered sound callee found arity
      (sent.definite.weaken fun _ => .inl) sent.loose expanded
  · exact (no_failure sound failed).elim
  · exact (Makes.called assigning ready sound ready.place.depth callee sent made).ordered rfl

include consistent

theorem elaborateConstruct_makes {c : String} (known : ∀ t ∈ types, t.Known .all)
    (given : Makes cx live root here A₀ A s arguments s)
    (h : elaborateConstruct cx elaborate here call c arguments types s = some (l, s')) :
    Makes cx live root here A₀ A s [l.code] s' := by
  rcases elaborateConstruct_steps h with ⟨id, instanceId, chosen, made, rfl⟩ |
    ⟨-, ⟨rfl, rfl, rfl⟩ | ⟨-, -, failed⟩⟩
  · have callee : Instantiation.Known cx .all ⟨id, s.tables.objectTy c, types⟩ :=
      ⟨ready.known.tables.objectTy trivial, known, initializer?_callable consistent chosen⟩
    exact (Makes.called assigning ready sound ready.place.depth callee given made).ordered rfl
  · exact given.ordered rfl
  · exact (no_failure sound failed).elim

/-- An arm evaluates its operands in order; some callees have no place for the receiver. -/
theorem elaborateArm_makes (known : ∀ t ∈ types, t.Known .all)
    (lengths : operands.length = types.length)
    (given : Makes cx live root here A₀ A s operands s)
    (bare : call.toSelf = true ∨ l.code.node.dropsReceiver = true →
      Makes cx live root here A₀ A s (operands.drop 1) s)
    (h : elaborateArm cx elaborate here call operands types s = some (l, s')) :
    Makes cx live root here A₀ A s [l.code] s' := by
  rcases elaborateArm_steps h with ⟨e, -, -, failed⟩ | ⟨receiverType, argumentTypes, rfl, rest⟩
  · exact (no_failure sound failed).elim
  · cases operands with
    | nil => cases lengths
    | cons receiver arguments =>
      rw [List.forall_mem_cons] at known
      simp only [List.headD_cons, List.drop_one, List.tail_cons] at rest bare
      rcases rest with ⟨p, callee, rfl, rfl⟩ | ⟨c, -, made⟩ | ⟨lib, name, -, rfl, rfl⟩ |
        ⟨id, m, callee, found, called⟩
      · exact given.ordered rfl
      · have drops : l.code.node.dropsReceiver = true := by
          rcases elaborateConstruct_steps made with ⟨_, _, -, -, rfl⟩ |
            ⟨-, ⟨-, -, rfl⟩ | ⟨-, -, failed⟩⟩
          · rfl
          · rfl
          · exact (no_failure sound failed).elim
        exact elaborateConstruct_makes assigning ready covered sound consistent known.2
          (bare (.inr drops)) made
      · exact (bare (.inr rfl)).ordered rfl
      · obtain ⟨n, found', -, global⟩ := Definitions.dispatch?_method consistent callee
        cases found.symm.trans found'
        obtain ⟨itself, key⟩ :=
          calledKey_known consistent (List.forall_mem_cons.2 known) callee found
        exact elaborateMethodCall_makes assigning ready covered sound key itself
          (by simpa using lengths.symm) given (fun owner => bare (.inl (global owner))) called

omit assigning sound consistent in
/-- Slots that are assigned are read in order. -/
theorem Makes.reads {cs : List Typed.Expr}
    (each : ∀ c ∈ cs, ∃ x t, A x ∧ c = Typed.Expr.ofSlot x (some t)) :
    Makes cx live root here A A s cs s where
  moves := .refl ready
  definite := by
    induction cs with
    | nil => exact .nil fun x after => after.elim id (covered.filled x)
    | cons c cs ih =>
      rw [List.forall_mem_cons] at each
      obtain ⟨x, t, inside, rfl⟩ := each.1
      exact .cons (.slot (.inl inside) fun _ => id) (ih each.2)
  loose c member := by
    obtain ⟨x, t, -, rfl⟩ := each c member
    exact Makes.loose_parts nofun nofun

omit ready covered in
/-- The arms of a call all start from one state, with the temporary slots assigned. -/
theorem elaborateArms_makes {s₀ : PassState} {temps : List SlotId} {chosen : List (List Ty)}
    {arms : List (Typed.Arm × Completions × List ScopeVar)} (begun : s₀.Ready cx live root here)
    (start : s₀.Covered live A here) (moved : Moves cx live root here s₀ s)
    (inside : ∀ x ∈ temps, A x) (known : ∀ ts ∈ chosen, ∀ t ∈ ts, t.Known .all)
    (lengths : ∀ ts ∈ chosen, ts.length = temps.length)
    (h : elaborateArms cx elaborate here call temps s₀.assigned chosen s = some (arms, s')) :
    Moves cx live root here s₀ s' ∧ ∀ arm ∈ arms, arm.1.body.ty = arm.2.1.normal ∧
      ∃ s₁, Makes cx live root here A A s₀ [arm.1.body] s₁ ∧ s₁.Grows s' ∧
        s₁.assigned = arm.2.2 := by
  induction chosen generalizing s arms with
  | nil =>
    obtain ⟨rfl, rfl⟩ := elaborateArms_nil_steps h
    exact ⟨moved, nofun⟩
  | cons types rest ih =>
    obtain ⟨arm, s₁, others, run, runRest, rfl⟩ := elaborateArms_cons_steps h
    rw [List.forall_mem_cons] at known lengths
    have grows := elaborateArms_grows assigning.growing runRest
    have begins := moved.withAssigned ((Moves.refl begun).earlier moved.grows)
    have covers := start.again begun begins
    have slots : ∀ c ∈ armOperands temps types, ∃ x t, A x ∧ c = Typed.Expr.ofSlot x (some t) := by
      intro c member
      obtain ⟨b, there, rfl⟩ := List.mem_map.1 member
      exact ⟨b.1, b.2, inside _ (List.of_mem_zip there).1, rfl⟩
    have makes := elaborateArm_makes assigning begins.ready covers (grows.no_errors sound) consistent
      known.1 (by simp [armOperands, lengths.1]) (.reads begins.ready covers slots)
      (fun _ => .reads begins.ready covers fun c member => slots c (List.mem_of_mem_drop member))
      run
    have typed := (elaborateArm_known (Vocabulary.all_covers cx) assigning.knowing begun.place
      begins.ready.known consistent trivial
      (fun b _ => ⟨trivial, fun _ _ => trivial, fun _ _ => trivial⟩) known.1
      (armOperands_known known.1) run).2.typed
    have whole : Makes cx live root here A A s₀ [arm.code] s₁ :=
      ⟨begins.trans makes.moves, makes.definite, makes.loose⟩
    obtain ⟨moves, each⟩ := ih whole.moves known.2 lengths.2 runRest
    exact ⟨moves, List.forall_mem_cons.2 ⟨⟨typed, s₁, whole, grows, rfl⟩, each⟩⟩

/-- Operands of union types are all evaluated, whatever the callees. -/
theorem elaborateDispatch_makes (known : ∀ t ∈ types, t.Known .all)
    (lengths : operands.length = types.length)
    (given : Makes cx live root here A₀ A s operands s)
    (bare : call.toSelf = true ∨ l.code.node.dropsReceiver = true →
      Makes cx live root here A₀ A s (operands.drop 1) s)
    (h : elaborateDispatch cx elaborate here call operands types s = some (l, s')) :
    Makes cx live root here A₀ A s [l.code] s' := by
  rcases elaborateDispatch_steps h with ⟨-, single⟩ | ⟨-, ⟨n, -, -, failed⟩ | ⟨chosen, temps, s₁,
    arms, s₂, expanded, made, run, rfl, rfl⟩⟩
  · exact elaborateArm_makes assigning ready covered sound consistent known lengths given bare single
  · exact (no_failure sound failed).elim
  · have sound₂ : s₂.errors = [] := sound
    have sizes := tempSlots_length made
    have members : ∀ ts ∈ chosen, ∀ t ∈ ts, t.Known .all := armsWithin_known known expanded
    have grows₁ := tempSlots_grows made
    have known₁ := ready.known.tempSlots made
    obtain ⟨methods, instances⟩ := tempSlots_keeps made
    obtain ⟨same, kept⟩ : _ ∧ ∀ x ∈ temps, s₁.frame.Kept live x := tempSlots_kept made
    have moves₁ : Moves cx live root here s s₁ :=
      .of_step ready grows₁ known₁ methods instances fun k member => .inl (same ▸ member)
    have bound : boundSlots temps operands = temps := boundSlots_all (by omega)
    have covered₁ : s₁.Covered live (fun x => x ∈ boundSlots temps operands ∨ A x) here :=
      { lives := covered.lives.mono fun _ => .inr
        kept := fun x inside => inside.elim (fun temp => kept x (bound ▸ temp))
          (covered.kept_later grows₁)
        filled := fun x filled => .inr (covered.filled x
          (ready.filled_back known₁ grows₁ (fun k member => same ▸ member) filled)) }
    obtain ⟨moves₂, each⟩ := elaborateArms_makes assigning sound₂ consistent moves₁.ready covered₁
      (.refl moves₁.ready) (fun x temp => .inl (bound.symm ▸ temp)) members
      (fun ts member => by rw [armsWithin_length expanded ts member, sizes]) run
    have after : Moves cx live root here s₁
        { s₂ with assigned := assignedByArms s₁.assigned arms } := by
      refine moves₂.withAssigned (assignedAfter_all _ ((Moves.refl moves₁.ready).earlier moves₂.grows)
        (List.forall_mem_map.2 fun arm member => ?_))
      obtain ⟨-, s₃, makes, grows, same⟩ := each arm member
      rw [← same]
      exact makes.moves.earlier grows
    have grows := grows₁.trans moves₂.grows
    -- What is assigned after all arms is assigned after each one that falls through.
    have bodies : ∀ arm ∈ arms.map (·.1),
        arm.body.Definite (fun x => x ∈ boundSlots temps operands ∨ A x) fun x =>
          arm.body.ty.isSome ∧
            After live A { s₂ with assigned := assignedByArms s₁.assigned arms } x := by
      refine List.forall_mem_map.2 fun arm member => ?_
      obtain ⟨typed, s₃, makes, onwards, same⟩ := each arm member
      refine makes.alone.weaken fun x ⟨falls, inside⟩ => inside.imp .inr ?_
      have through : arm.2.1.fallsThrough = true := (congrArg _ typed).symm.trans falls
      exact makes.moves.filled_path after.ready moves₂.ready.known onwards
        (List.mem_map_of_mem (f := fun arm : Typed.Arm × Completions × List ScopeVar =>
          (arm.2.1.fallsThrough, arm.2.2)) member) through same
    refine ⟨moves₁.trans after, .cons (.dispatch (given.definite.weaken fun _ => .inl) bodies
      fun arm _ falls x inside => ⟨falls, inside⟩) (.nil fun _ => id),
      List.forall_mem_cons.2 ⟨Makes.loose_parts (fun d part => ?_) (by rintro _ ⟨⟩), (by rintro _ ⟨⟩)⟩⟩
    have among : d ∈ operands ∨ ∃ arm ∈ arms, arm.1.body = d := by
      simpa [Typed.Node.parts, Typed.Node.operands, Typed.Node.landing?] using part
    rcases among with operand | ⟨arm, member, rfl⟩
    · exact given.loose_later grows d operand
    · obtain ⟨-, s₃, makes, onwards, -⟩ := each arm member
      exact makes.loose_later onwards _ List.mem_cons_self

omit ready covered consistent in
/-- Operands behind a receiver that needs no code. -/
theorem elaborateParts_tail {r : Expr} (constant : r.isConstant = true) {written : List Expr}
    {codes : List Typed.Expr} {ends : Completions} (ready : s.Ready cx live root here)
    (covered : s.Covered live A here)
    (h : elaborateParts elaborate here (Completions.ofNormal Ty.nil) (r :: written) s =
      some ((codes, ends), s')) (falls : ends.fallsThrough = true) :
    Makes cx live root here A A s (codes.drop 1) s' := by
  obtain ⟨first, s₁, run, ⟨through, rest, runRest, rfl⟩ | ⟨stops, rfl, rfl, rfl⟩⟩ :=
    elaborateParts_cons_steps h
  · have grows := elaborateParts_grows assigning.growing runRest
    obtain rfl := assigning.constants _ _ _ _ _ constant run (grows.no_errors sound)
    exact (elaborateParts_makes assigning ready covered sound through runRest).1
  · rw [stops] at falls
    cases falls

/-- A call whose receiver is not dropped, unless it is a constant. -/
theorem elaboratePlainCall_makes {e : Expr} {receiver : Option Expr} {name : String}
    {nameSpan : Span} {written : List Expr} {block : Option Block}
    (h : elaboratePlainCall cx elaborate here e.id receiver name nameSpan written block s =
      some (l, s')) : Makes cx live root here A A s [l.code] s' := by
  obtain ⟨parts, ends, s₁, run, ⟨stops, rfl, rfl⟩ | ⟨falls, sent, runSent, rfl, plain⟩⟩ :=
    elaboratePlainCall_steps h
  · exact stopped_makes assigning ready covered sound run stops
  · have sound₁ := (elaborateDispatch_grows assigning.growing runSent).no_errors sound
    obtain ⟨makes, -, typed⟩ := elaborateParts_makes assigning ready covered sound₁ rfl run
    obtain ⟨-, -, known⟩ := elaborateParts_known assigning.knowing ready.place ready.known
      (Completions.ofNormal_all .nil) (fun _ _ => trivial) run
    have types := fun c (member : c ∈ parts) => (known c member).own
    have ready₁ := makes.moves.ready
    have covered₁ := covered.after ready₁ makes.moves.grows
    have self : A here.activation.selfSlot := covered.lives.self
    refine makes.onto ?_
    change Makes cx live root here A (After live A s₁) s₁ [sent.code] s'
    have typed := typed falls
    cases receiver with
    | none =>
      simp only [sentOperands, Option.isNone_none, if_true] at runSent
      refine elaborateDispatch_makes assigning ready₁ covered₁ sound consistent ?_ ?_ ?_
        (fun _ => by exact makes.settled) runSent
      · intro t member
        rcases List.mem_filterMap.1 member with ⟨c, there, type⟩
        rcases List.mem_cons.1 there with rfl | there
        · cases type
          exact ready.place.activation.selfType
        · exact types c there t type
      · exact filterMap_length (List.forall_mem_cons.2 ⟨by rfl, typed⟩)
      · exact ⟨.refl ready₁, .cons (.slot (.inl self) fun _ => id) makes.settled.definite,
          List.forall_mem_cons.2 ⟨Makes.loose_parts (by rintro _ ⟨⟩) (by rintro _ ⟨⟩), makes.loose⟩⟩
    | some r =>
      simp only [sentOperands, Option.isNone_some, Bool.false_eq_true, if_false] at runSent
      refine elaborateDispatch_makes assigning ready₁ covered₁ sound consistent (fun t member => ?_)
        (filterMap_length typed) makes.settled (fun drops => ?_) runSent
      · obtain ⟨c, there, type⟩ := List.mem_filterMap.1 member
        exact types c there t type
      · have constant := plain (drops.resolve_left (by rintro ⟨⟩)) r rfl
        exact (elaborateParts_tail assigning sound₁ constant ready covered run falls).settled

omit consistent in
/-- The body of a block starts with the parameters that get a value. -/
theorem elaborateYield_makes {span : Span} {written : List Expr}
    (h : elaborateYield elaborate here span written s = some (l, s')) :
    Makes cx live root here A A s [l.code] s' := by
  obtain ⟨parts, ends, s₁, run, ⟨stops, rfl, rfl⟩ | ⟨falls, ⟨block, site, definer, parameters, s₂,
    body, origin, bound, runBody, rfl⟩ | ⟨e, -, -, failed⟩⟩⟩ := elaborateYield_steps h
  · exact stopped_makes assigning ready covered sound run stops
  · have grows₂ := (grows_assigned s₁ _).trans (bindYielded_grows bound)
    have grows₃ := elaborateBody_grows assigning.growing runBody
    obtain ⟨makes, -, -⟩ := elaborateParts_makes assigning ready covered
      ((grows₂.trans grows₃).no_errors sound) rfl run
    obtain ⟨known₁, -, known⟩ := elaborateParts_known assigning.knowing ready.place ready.known
      (Completions.ofNormal_all .nil) (fun _ _ => trivial) run
    have types := fun c (member : c ∈ parts) => (known c member).own
    have ready₁ := makes.moves.ready
    have covered₁ := covered.after ready₁ makes.moves.grows
    obtain ⟨blockKnown, standing⟩ := ready.place.activation.yielded origin
    have placeBody : Place.Known cx .all ⟨blockContext block site definer, here.depth⟩ :=
      ⟨standing, ready.place.depth⟩
    have scope := standing.path.mono ready.place.depth
    have proper : ProperPath (.block block.id :: definer.path) := scope.proper
    have known₀ := known₁.withoutAssigned
      fun k => !isWithin k.path (.block block.id :: definer.path)
    have known₂ := known₀.bindYielded scope (fun _ _ => trivial) types bound
    obtain ⟨binds, missing⟩ := bindYielded_binds scope known₀ types bound
    have admits := covered₁.lives.admits_block origin
    have rooted := rooted_cons (.block block.id)
      (ready.rooted _ (covered.lives.definer origin).path)
    have own {x : SlotId} (member : x ∈ parameters) : s₂.frame.Loose live x := by
      obtain ⟨name, holds⟩ := binds.slots x member
      exact holds.loose fun there => admits _ there (List.suffix_refl _)
    obtain ⟨readyBody, coveredBody⟩ := ready₁.enter (B := fun x => (x ∈ boundSlots parameters parts ∧
        x ∉ parameters.drop parts.length) ∨ After live A s₁ x) covered₁
      placeBody known₂ grows₂ proper rooted (fun k member => by simpa using List.mem_filter.1 member) binds
      (covered₁.lives.yielded (fun _ => .inr) origin)
      (fun q there within => admits.innermost there within) (fun _ => .inr)
      (fun x inside => by
        rcases inside with ⟨given, -⟩ | inside
        · rw [boundSlots_take] at given
          exact .inr (binds.slots x (List.mem_of_mem_take given))
        · exact .inl inside)
      (fun x member k there same never found => by
        rw [← List.take_append_drop parts.length parameters, List.mem_append,
          ← boundSlots_take] at member
        -- A parameter without a value is known to be nil at times.
        have given : x ∉ parameters.drop parts.length := by
          intro without
          obtain ⟨name, seat, nilable⟩ := missing x without
          have key : ScopeVar.Known cx .all ⟨_, name⟩ := scope
          have kind := (known₂.slots.find?_holds key seat).unique
            (known₂.slots.find?_holds (known₂.assigned k there) found)
          exact never (nilable.later (.refl s₂) known₂ known₂ key (known₂.assigned k there) kind)
        exact .inl ⟨member.resolve_right given, given⟩)
    obtain ⟨makesBody, -⟩ := elaborateBody_makes assigning readyBody coveredBody sound runBody
    obtain ⟨methods, instances⟩ := bindYielded_keeps bound
    have moves := Moves.leave ready₁ grows₂ methods instances (fun k member =>
      (binds.assigned k member).imp (fun old => (List.mem_filter.1 old).1)
        fun ⟨same, _⟩ => (congrArg (fun p => (pathKind p).getLast?) same).trans rooted) makesBody.moves
    have empties (x : SlotId) (emptied : x ∈ s'.frame.slotsWithin
        (.block block.id :: definer.path) ++ parameters.drop parts.length) : s'.frame.Loose live x := by
      rcases List.mem_append.1 emptied with inside | missing
      · exact makesBody.moves.ready.known.slots.slotsWithin_loose proper admits inside
      · exact (own (List.mem_of_mem_drop missing)).mono grows₃.labels fun _ => id
    refine ⟨makes.moves.trans moves, .cons (.yield makes.definite (fun x inside emptied => ?_)
      makesBody.alone fun x inside => ?_) (.nil fun _ => id),
      List.forall_mem_cons.2 ⟨Makes.loose_parts (fun d part => ?_) empties, nofun⟩⟩
    · exact (covered₁.kept_later moves.grows inside).not_loose (empties x emptied)
    · refine inside.imp (fun before => .inr (.inl before)) ?_
      exact fun ⟨k, member, there, rest⟩ => ⟨k, member, .inl there, rest⟩
    · have among : d ∈ parts ∨ d = body.code := by
        simpa [Typed.Node.parts, Typed.Node.operands, Typed.Node.landing?] using part
      rcases among with operand | rfl
      · exact makes.loose_later moves.grows d operand
      · exact fun x empties => (makesBody.loose _ List.mem_cons_self x empties).mono
          (List.prefix_refl _) fun _ => .inl
  · exact (no_failure sound failed).elim

end Calls

end Constructs

section Forms

variable {cx : Setting} {elaborate : Elaborate}

/-- Each construct reads only what is assigned or can be nil, given that its parts do. -/
theorem elaboratePlainForm_assigning (consistent : cx.definitions.Consistent)
    (assigning : elaborate.Assigning cx) :
    Elaborate.Assigning cx (elaboratePlainForm cx elaborate) where
  growing here e s l s' h :=
    elaborateForm_grows assigning.growing here e s l s'
      (elaboratePlainForm_below cx elaborate here e s _ h)
  knowing here e s l s' written place known h :=
    elaborateForm_knowing (Vocabulary.all_covers cx) consistent assigning.knowing here e s l s'
      written place known (elaboratePlainForm_below cx elaborate here e s _ h)
  constants here e s l s' constant h sound := by
    rw [Expr.isConstant] at constant
    split at constant
    · rename_i v form
      simp only [elaboratePlainForm, elaborateForm, form] at h
      rcases elaborateRead_steps h with ⟨kind, -, -⟩ | ⟨e, -, -, failed⟩ | ⟨-, c, -, rfl, -⟩ |
        ⟨-, rfl, -⟩ | ⟨-, -, rfl, -⟩ | ⟨-, rfl, -⟩
      · rw [kind] at constant
        cases constant
      · exact (no_failure sound failed).elim
      all_goals rfl
    · cases constant
  makes live root here A e s l s' ready covered h sound := by
    cases form : e.form with
    | literal _ | defMethod _ | defClass _ | defLib _ =>
      simp only [elaboratePlainForm, elaborateForm, form] at h
      obtain ⟨rfl, rfl⟩ := pure_eq_some.1 h
      exact (Makes.nil ready covered).ordered rfl
    | self =>
      simp only [elaboratePlainForm, elaborateForm, form] at h
      obtain ⟨rfl, rfl⟩ := pure_eq_some.1 h
      exact .slot ready covered covered.lives.self
    | read v =>
      simp only [elaboratePlainForm, elaborateForm, form] at h
      exact elaborateRead_makes ready covered sound form h
    | assign v span value =>
      simp only [elaboratePlainForm, elaborateForm, form] at h
      exact elaborateAssignment_makes assigning ready covered sound form h
    | call receiver name nameSpan arguments block =>
      simp only [elaboratePlainForm, form] at h
      exact elaboratePlainCall_makes assigning ready covered sound consistent h
    | yield arguments =>
      simp only [elaboratePlainForm, elaborateForm, form] at h
      exact elaborateYield_makes assigning ready covered sound h
    | «return» value | «break» value =>
      simp only [elaboratePlainForm, elaborateForm, form] at h
      exact elaborateExit_makes assigning ready covered sound h
    | conditional kind condition consequent alternative =>
      simp only [elaboratePlainForm, elaborateForm, form] at h
      exact elaborateConditional_makes assigning ready covered sound h
    | «while» condition body =>
      simp only [elaboratePlainForm, elaborateForm, form] at h
      exact elaborateWhile_makes assigning ready covered sound h
    | logical connective left right =>
      simp only [elaboratePlainForm, elaborateForm, form] at h
      exact elaborateLogical_makes assigning ready covered sound h
    | not operand =>
      simp only [elaboratePlainForm, elaborateForm, form] at h
      exact elaborateNot_makes assigning ready covered sound h

theorem elaboratePlain_assigning (consistent : cx.definitions.Consistent) (fuel : Nat) :
    Elaborate.Assigning cx (elaboratePlain cx fuel) := by
  induction fuel with
  | zero => exact ⟨fun _ _ _ _ _ => nofun, fun _ _ _ _ _ _ _ _ => nofun,
      fun _ _ _ _ _ _ => nofun, fun _ _ _ _ _ _ _ _ _ _ => nofun⟩
  | succ fuel ih => exact elaboratePlainForm_assigning consistent ih

end Forms

end TypedBlocks.Inference

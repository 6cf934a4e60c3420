import TypedBlocks.Proofs.Overloads
import TypedBlocks.Proofs.ClassChains

/-!
# Inheritance

A class answers what its own methods answer, and else what its superclass answers; the latter may be
anything, a class of the same circle included. Which class the superclass is depends on the first
opening of the class: what it declares is recorded, and further openings do not change it. Builtin
classes are open from the start, so nothing that is declared changes theirs.
-/
namespace TypedBlocks.Definitions

variable {d : Definitions} {c e s : String}

section Chains

/-- Two chains from one class go the same way as long as both go on. -/
theorem chain_prefix {first second : List String} (chain : (c :: first).IsChain d.Extends)
    (other : (c :: second).IsChain d.Extends) : first <+: second ∨ second <+: first := by
  induction first generalizing c second with
  | nil => exact .inl (List.nil_prefix)
  | cons e first ih =>
    cases second with
    | nil => exact .inr (List.nil_prefix)
    | cons f second =>
      obtain ⟨step, chain⟩ := List.isChain_cons_cons.1 chain
      obtain ⟨step', other⟩ := List.isChain_cons_cons.1 other
      obtain rfl : e = f := Option.some.inj (step.symm.trans step')
      exact (ih chain other).imp (List.prefix_cons_inj e).2 (List.prefix_cons_inj e).2

/-- A chain that goes on only to a class that it has already. -/
structure Complete (d : Definitions) (chain : List String) : Prop where
  linked : chain.IsChain d.Extends
  classes : ∀ e ∈ chain, d.isClass e = true
  nodup : chain.Nodup
  closed : ∀ e ∈ chain, ∀ s, d.Extends e s → d.isClass s = true → s ∈ chain

theorem ancestors_complete (d : Definitions) (c : String) : d.Complete (d.ancestors c) where
  linked := ancestors_chain d c
  classes _ := ancestors_classes
  nodup := ancestors_nodup d c
  closed _ member _ := ancestors_closed member

/-- A complete chain is not the beginning of a longer one. -/
theorem Complete.eq_of_prefix {first second : List String} (complete : d.Complete (c :: first))
    (longer : d.Complete (c :: second)) (start : first <+: second) : first = second := by
  obtain ⟨rest, rfl⟩ := start
  cases rest with
  | nil => rw [List.append_nil]
  | cons f rest =>
    obtain ⟨before, last, split⟩ : ∃ before last, c :: first = before ++ [last] :=
      (List.eq_nil_or_concat' _).resolve_left (List.cons_ne_nil c first)
    have whole : c :: (first ++ f :: rest) = before ++ last :: f :: rest := by
      rw [← List.cons_append, split, List.append_assoc, List.singleton_append]
    have linked := longer.linked
    have nodup := longer.nodup
    rw [whole, List.isChain_append_cons_cons] at linked
    have again : f ∈ c :: first :=
      complete.closed last (by simp [split]) f linked.2.1 (longer.classes f (by simp))
    rw [← List.cons_append] at nodup
    exact absurd rfl ((List.nodup_append.1 nodup).2.2 f again f List.mem_cons_self)

/-- A complete chain that starts with a class is the chain of the class. -/
theorem Complete.eq_ancestors {rest : List String} (complete : d.Complete (c :: rest)) :
    d.ancestors c = c :: rest := by
  obtain ⟨rest', -, start, -⟩ := ancestors_walked (complete.classes c List.mem_cons_self)
  have own := ancestors_complete d c
  rw [start] at own ⊢
  rcases chain_prefix own.linked complete.linked with shorter | longer
  · rw [own.eq_of_prefix complete shorter]
  · rw [complete.eq_of_prefix own longer]

/-- The chain of a class is that of its superclass behind it. Where the superclass leads back to the
class, the class stands at the other end. -/
theorem ancestors_of_extends (known : d.isClass c = true) (linked : d.Extends c s)
    (above : d.isClass s = true) :
    d.ancestors c = c :: d.ancestors s ∨
      ∃ between, d.ancestors s = between ++ [c] ∧ d.ancestors c = c :: between := by
  obtain ⟨rest, -, start, -⟩ := ancestors_walked above
  have upper := ancestors_complete d s
  by_cases back : c ∈ d.ancestors s
  · right
    obtain ⟨between, after, split⟩ := List.append_of_mem back
    have ends : after = [] := by
      cases after with
      | nil => rfl
      | cons f after =>
        -- Behind the class would come its superclass, which is the head of the chain.
        have chain := upper.linked
        rw [split, List.isChain_append_cons_cons] at chain
        obtain rfl : s = f := Option.some.inj (linked.symm.trans chain.2.1)
        have nodup := upper.nodup
        rw [split] at nodup start
        cases between with
        | nil =>
          obtain ⟨rfl, -⟩ := List.cons.inj start
          simp at nodup
        | cons g between =>
          obtain ⟨rfl, -⟩ := List.cons.inj start
          simp at nodup
    rw [ends] at split
    refine ⟨between, split, Complete.eq_ancestors ?_⟩
    have same : ∀ f, f ∈ c :: between ↔ f ∈ d.ancestors s := by
      intro f
      rw [split, List.mem_append, List.mem_singleton, List.mem_cons, or_comm]
    refine ⟨?_, fun f member => upper.classes f ((same f).1 member), ?_, fun f member t step there =>
      (same t).2 (upper.closed f ((same f).1 member) t step there)⟩
    · have chain := upper.linked
      cases between with
      | nil => exact .singleton c
      | cons g between =>
        rw [split, List.cons_append] at start chain
        obtain ⟨rfl, -⟩ := List.cons.inj start
        exact List.isChain_cons_cons.2
          ⟨linked, (List.isChain_append.1 (List.cons_append ▸ chain)).1⟩
    · exact (List.perm_append_singleton c between).nodup_iff.1 (split ▸ upper.nodup)
  · left
    refine Complete.eq_ancestors ⟨?_, ?_, List.nodup_cons.2 ⟨back, upper.nodup⟩, ?_⟩
    · have chain := upper.linked
      rw [start] at chain ⊢
      exact List.isChain_cons_cons.2 ⟨linked, chain⟩
    · exact List.forall_mem_cons.2 ⟨known, upper.classes⟩
    · refine List.forall_mem_cons.2 ⟨fun t step _ => ?_, fun f member t step there =>
        List.mem_cons_of_mem c (upper.closed f member t step there)⟩
      obtain rfl : s = t := Option.some.inj (linked.symm.trans step)
      exact List.mem_cons_of_mem c (mem_ancestors_self above)

/-- A class descends from its superclass. -/
theorem descendsFrom_of_extends (known : d.isClass c = true) (linked : d.Extends c s)
    (above : d.isClass s = true) : d.descendsFrom c s = true :=
  descendsFrom_iff.2 (ancestors_closed (mem_ancestors_self known) linked above)

end Chains

section Messages

variable {msg : Message}

/-- The message as it would be sent to an object of the class. -/
def toObject (msg : Message) (c : String) : Message := { msg with receiver := Ty.instanceOf c }

theorem choose?_none {level : List MethodEntry}
    (silent : ∀ n ∈ level, d.isApplicable msg n = false) : d.choose? msg level = none := by
  cases chosen : d.choose? msg level with
  | none => rfl
  | some id =>
    obtain ⟨m, member, -, applicable⟩ := choose?_mem chosen
    rw [silent m member] at applicable
    cases applicable

/-- What no method of the class itself can answer is answered as its superclass does. -/
theorem methodInChain?_of_extends (known : d.isClass c = true) (linked : d.Extends c s)
    (above : d.isClass s = true) (receiver : msg.receiver.className? = some c)
    (silent : ∀ n ∈ d.methodsOf c, d.isApplicable msg n = false) :
    d.methodInChain? msg = d.methodInChain? (toObject msg s) := by
  have nothing : d.choose? msg (d.methodsOf c) = none := choose?_none silent
  have sent : d.methodInChain? (toObject msg s) =
      (d.ancestors s).findSome? fun e => d.choose? msg (d.methodsOf e) := rfl
  rw [sent, methodInChain?, receiver, Option.bind_some]
  rcases ancestors_of_extends known linked above with longer | ⟨between, upper, lower⟩
  · rw [longer, List.findSome?_cons, nothing]
  · rw [lower, upper, List.findSome?_cons, nothing, List.findSome?_append, List.findSome?_cons,
      nothing, List.findSome?_nil, Option.or_none]

/-- Only messages to a class itself are not answered by methods first. -/
theorem dispatch?_of_methodInChain? (receiver : msg.receiver.className? = some c) (other : c ≠ "Class")
    {id : MethodId} (found : d.methodInChain? msg = some id) :
    d.dispatch? msg = some (.method id) := by
  have plain : d.classMessage? msg = none := by
    rw [classMessage?]
    split
    · rename_i k same
      rw [same] at receiver
      exact absurd (Option.some.inj receiver).symm other
    · rfl
  rw [dispatch?, plain, found]
  rfl

/-- The class has the other as superclass, and its objects answer as those of the superclass where it
has no answer of its own. -/
structure Inherits (d : Definitions) (c s : String) : Prop where
  recorded : d.Extends c s
  descends : d.descendsFrom c s = true
  answers : ∀ msg, msg.receiver.className? = some c →
    (∀ n ∈ d.methodsOf c, d.isApplicable msg n = false) →
      ∀ id, d.methodInChain? (toObject msg s) = some id → d.dispatch? msg = some (.method id)
  methods : ∀ msg, msg.receiver.className? = some c →
    (∀ n ∈ d.methodsOf c, d.isApplicable msg n = false) →
      ∀ m ∈ d.methodsOf s, d.isApplicable msg m = true →
        ∃ id, d.choose? msg (d.methodsOf s) = some id ∧ d.dispatch? msg = some (.method id)

theorem inherits_of_extends (known : d.isClass c = true) (linked : d.Extends c s)
    (above : d.isClass s = true) (other : c ≠ "Class") : d.Inherits c s where
  recorded := linked
  descends := descendsFrom_of_extends known linked above
  answers := by
    intro msg receiver silent id found
    rw [← methodInChain?_of_extends known linked above receiver silent] at found
    exact dispatch?_of_methodInChain? receiver other found
  methods := by
    intro msg receiver silent m member applicable
    obtain ⟨id, chosen⟩ := exists_choose? member applicable
    obtain ⟨rest, -, start, -⟩ := ancestors_walked above
    have first : d.methodInChain? (toObject msg s) = some id := by
      change (d.ancestors s).findSome? (fun e => d.choose? msg (d.methodsOf e)) = some id
      rw [start, List.findSome?_cons, chosen]
    rw [← methodInChain?_of_extends known linked above receiver silent] at first
    exact ⟨id, chosen, dispatch?_of_methodInChain? receiver other first⟩

end Messages

section Declarations

variable {bodies : List (List Expr)}

/-- The first of the statements that opens the class. -/
def firstOpening? (name : String) (es : List Expr) : Option ClassDef :=
  es.findSome? fun e =>
    match e.form with
    | .defClass c => if c.name == name then some c else none
    | _ => none

theorem findSome?_opening? (name : String) (es : List Expr) :
    es.findSome? (opening? name) =
      (firstOpening? name es).map fun c => some (c.superclass.getD defaultSuperclass) := by
  induction es with
  | nil => rfl
  | cons e es ih =>
    rw [firstOpening?, List.findSome?_cons, List.findSome?_cons, ih, opening?]
    cases form : e.form with
    | defClass c =>
      dsimp only
      cases c.name == name <;> rfl
    | _ => rfl

theorem firstOpening?_isSome {e : Expr} (member : e ∈ bodies.flatten) {span : Span}
    (declared : declaredSuperclass? e = some (c, s, span)) :
    ∃ first, firstOpening? c bodies.flatten = some first := by
  rw [← Option.isSome_iff_exists, firstOpening?, List.findSome?_isSome_iff]
  refine ⟨e, member, ?_⟩
  rw [declaredSuperclass?] at declared
  split at declared
  · rename_i k form
    obtain ⟨t, -, same⟩ := Option.map_eq_some_iff.1 declared
    obtain ⟨rfl, -⟩ := Prod.mk.inj same
    simp only [form, beq_self_eq_true, if_true, Option.isSome_some]
  · cases declared

/-- A class that is not builtin is recorded as its first opening has it. -/
theorem superclass?_of_first (collected : ofBodies bodies = .ok d) (new : builtin.isClass c = false)
    {first : ClassDef} (opened : firstOpening? c bodies.flatten = some first) :
    d.superclass? c = some (first.superclass.getD defaultSuperclass) := by
  rw [isClass_eq, Option.isSome_eq_false_iff, Option.isNone_iff_eq_none] at new
  rw [superclass?_eq, ofBodies_heading? collected, new, Option.none_or, findSome?_opening?, opened]
  rfl

theorem declaredSuperclass?_isClass (collected : ofBodies bodies = .ok d) {e : Expr}
    (member : e ∈ bodies.flatten) {span : Span}
    (declared : declaredSuperclass? e = some (c, s, span)) : d.isClass c = true := by
  obtain ⟨first, opened⟩ := firstOpening?_isSome member declared
  rw [isClass_eq, ofBodies_heading? collected, findSome?_opening?, opened, Option.map_some,
    Option.isSome_or, Option.isSome_some, Bool.or_true]

/-- A statement that declares a superclass is about classes of the program. A builtin class keeps its
superclass. Of any other class the first opening decides: the superclass that it declares is recorded,
whatever further openings say, and the class inherits from it. -/
theorem declared_superclass_recorded (collected : ofBodies bodies = .ok d) {e : Expr}
    (member : e ∈ bodies.flatten) {span : Span}
    (declared : declaredSuperclass? e = some (c, s, span)) :
    d.isClass c = true ∧ d.isClass s = true ∧
      (builtin.isClass c = true → d.superclass? c = builtin.superclass? c) ∧
      (builtin.isClass c = false → ∃ first, firstOpening? c bodies.flatten = some first ∧
        ∀ t, first.superclass = some t → d.Inherits c t) := by
  have known := declaredSuperclass?_isClass collected member declared
  refine ⟨known, (ofBodies_steps collected).2 e member c s span declared, fun old => ?_,
    fun new => ?_⟩
  · rw [isClass_eq] at old
    obtain ⟨h, found⟩ := Option.isSome_iff_exists.1 old
    rw [superclass?_eq, superclass?_eq, ofBodies_heading? collected, found, Option.some_or]
  · obtain ⟨first, opened⟩ := firstOpening?_isSome member declared
    refine ⟨first, opened, fun t stated => ?_⟩
    have linked : d.Extends c t := by
      rw [Extends, superclass?_of_first collected new opened, stated, Option.getD_some]
    have above : d.isClass t = true := by
      obtain ⟨e', member', found⟩ := List.exists_of_findSome?_eq_some opened
      split at found
      · rename_i form
        split at found
        · cases found
          refine (ofBodies_steps collected).2 e' member' first.name t first.nameSpan ?_
          rw [declaredSuperclass?, form]
          simp [stated]
        · cases found
      · cases found
    refine inherits_of_extends known linked above ?_
    rintro rfl
    revert new
    decide

/-- A class that is opened with a superclass and reopened with two others. -/
def reopenedText : String :=
  "class Bird\n  def wings\n    2\n  end\nend\nclass Kite\nend\nclass Duck < Bird\nend\n" ++
    "class Duck < Kite\nend\nclass Duck < String\nend\n"

/-- A message without arguments to an object of class `Duck`. -/
def wingsMessage : Message := ⟨Ty.instanceOf "Duck", "wings", [], false, false⟩

/-- A statement of the module declares the superclass. -/
def declares (m : Module) (c s : String) : Bool :=
  m.body.any fun e => (declaredSuperclass? e).any fun x => x.1 == c && x.2.1 == s

theorem declares_iff {m : Module} : declares m c s = true ↔
    ∃ e ∈ [m.body].flatten, ∃ span, declaredSuperclass? e = some (c, s, span) := by
  simp [declares, Option.any_eq_true]

theorem reopenedText_inherits : ∃ m next d e span,
    Module.read ⟨0⟩ reopenedText = .ok (m, next) ∧ ofBodies [m.body] = .ok d ∧
      e ∈ [m.body].flatten ∧ declaredSuperclass? e = some ("Duck", "Kite", span) ∧
        d.Inherits "Duck" "Bird" ∧ ¬ d.Extends "Duck" "Kite" ∧
          ∃ id, d.dispatch? wingsMessage = some (.method id) := by
  obtain ⟨m, next, d, read, collected, holds⟩ := exists_module reopenedText
    (fun m d => declares m "Duck" "Kite" &&
      (firstOpening? "Duck" [m.body].flatten).any (fun k => k.superclass == some "Bird") &&
      (d.methodsOf "Duck").isEmpty && (d.methodsOf "Bird").any (d.isApplicable wingsMessage))
    (by decide +kernel)
  simp only [Bool.and_eq_true] at holds
  obtain ⟨⟨⟨stated, decides⟩, none⟩, wings⟩ := holds
  obtain ⟨e, member, span, declared⟩ := declares_iff.1 stated
  obtain ⟨-, -, -, recorded⟩ := declared_superclass_recorded collected member declared
  obtain ⟨first, opened, inherits⟩ := recorded (by decide)
  obtain ⟨first', opened', bird⟩ := (Option.any_eq_true _ _).1 decides
  cases opened.symm.trans opened'
  have duck := inherits "Bird" (by simpa using bird)
  obtain ⟨n, listed, applicable⟩ := List.any_eq_true.1 wings
  obtain ⟨id, -, answered⟩ := duck.methods wingsMessage rfl
    (by simp [List.isEmpty_iff.1 none]) n listed applicable
  exact ⟨m, next, d, e, span, read, collected, member, declared, duck, fun other =>
    absurd (Option.some.inj (duck.recorded.symm.trans other)) (by decide), id, answered⟩

/-- Not every superclass that is declared is recorded: a builtin class keeps its own. -/
theorem declared_superclass_dropped : ¬ ∀ bodies d, ofBodies bodies = .ok d →
    ∀ e ∈ bodies.flatten, ∀ c s span, declaredSuperclass? e = some (c, s, span) →
      d.Extends c s ∧ d.descendsFrom c s = true := by
  intro kept
  obtain ⟨m, next, d, -, collected, holds⟩ := exists_module "class Int < String\nend"
    (fun m d => declares m "Int" "String" && !d.descendsFrom "Int" "String") (by decide +kernel)
  obtain ⟨stated, other⟩ := Bool.and_eq_true_iff.1 holds
  obtain ⟨e, member, span, declared⟩ := declares_iff.1 stated
  rw [(kept _ d collected e member _ _ span declared).2] at other
  cases other

end Declarations

end TypedBlocks.Definitions

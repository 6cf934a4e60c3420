import Mathlib.Data.List.Chain
import Mathlib.Data.List.Perm.Subperm
import Mathlib.Logic.Relation
import TypedBlocks.Proofs.DefinitionTables
import TypedBlocks.Proofs.Outcomes
import TypedBlocks.Syntax.Source

/-!
# Chains of superclasses

A class is followed by its recorded superclasses until there is none, or one that the chain has
already. So the ancestors of a class are the classes that can be reached from it, and descending is
reflexive and transitive whatever the declarations are. Nothing keeps two classes from naming each
other as superclass, though: the hierarchy is a tree under `Object` exactly where no chain leads into
a circle.
-/
namespace TypedBlocks.Definitions

open Relation (ReflTransGen TransGen)

variable {d : Definitions}

/-- The superclass that is recorded for a class. -/
def superclass? (d : Definitions) (name : String) : Option String :=
  (d.class? name).bind (·.superclass)

/-- The second class is the recorded superclass of the first. -/
def Extends (d : Definitions) (c s : String) : Prop := d.superclass? c = some s

/-- Following the superclasses of the class leads to one that is above itself. -/
def Circular (d : Definitions) (c : String) : Prop :=
  ∃ e, ReflTransGen d.Extends c e ∧ TransGen d.Extends e e

theorem class?_name {name : String} {c : ClassEntry} (found : d.class? name = some c) :
    c.name = name := by
  simpa using List.find?_some found

theorem isClass_iff {name : String} : d.isClass name = true ↔ name ∈ d.classes.map (·.name) := by
  simp [isClass, class?, List.find?_isSome]

section Walks

variable {met : List String} {next : Option String} {fuel : Nat}

/-- The classes that a walk along the superclasses has met, and where it goes on. -/
structure Walked (d : Definitions) (met : List String) (next : Option String) : Prop where
  nodup : met.Nodup
  classes : ∀ c ∈ met, d.isClass c = true
  chain : met.IsChain d.Extends
  last : ∀ c ∈ met.getLast?, d.superclass? c = next

/-- No walk is longer than the list of all classes. -/
theorem Walked.length_le (walked : d.Walked met next) : met.length ≤ d.classes.length := by
  have within : met ⊆ d.classes.map (·.name) := fun c member =>
    isClass_iff.1 (walked.classes c member)
  simpa using (List.subperm_of_subset walked.nodup within).length_le

theorem Walked.step {name : String} {c : ClassEntry} (walked : d.Walked met (some name))
    (found : d.class? name = some c) (new : name ∉ met) :
    d.Walked (met ++ [name]) c.superclass where
  nodup := List.nodup_append.2 ⟨walked.nodup, List.pairwise_singleton _ name, by
    rintro e member f there rfl
    exact new (List.mem_singleton.1 there ▸ member)⟩
  classes := by
    intro e member
    rcases List.mem_append.1 member with old | last
    · exact walked.classes e old
    · rw [List.mem_singleton.1 last, isClass, found]
      rfl
  chain := List.isChain_append.2 ⟨walked.chain, .singleton name, fun e last f head => by
    cases head
    exact walked.last e last⟩
  last := by
    intro e last
    rw [List.getLast?_concat] at last
    cases last
    rw [superclass?, found]
    rfl

theorem ancestorsFrom_unknown {name : String} (unknown : d.class? name = none) :
    d.ancestorsFrom fuel met (some name) = met := by
  cases fuel <;> simp [ancestorsFrom, unknown]

theorem ancestorsFrom_class {name : String} {c : ClassEntry} (found : d.class? name = some c) :
    d.ancestorsFrom (fuel + 1) met (some name) =
      if name ∈ met then met else d.ancestorsFrom fuel (met ++ [name]) c.superclass := by
  simp [ancestorsFrom, found, class?_name found]

/-- A walk goes on until there is no superclass, or one that it has met. -/
theorem Walked.ancestorsFrom (walked : d.Walked met next)
    (room : d.classes.length < met.length + fuel) :
    ∃ last, d.Walked (d.ancestorsFrom fuel met next) last ∧ met <+: d.ancestorsFrom fuel met next ∧
      ∀ s ∈ last, d.isClass s = true → s ∈ d.ancestorsFrom fuel met next := by
  induction fuel generalizing met next with
  | zero =>
    have bound := walked.length_le
    omega
  | succ fuel ih =>
    cases next with
    | none => exact ⟨none, walked, List.prefix_refl met, nofun⟩
    | some name =>
      cases found : d.class? name with
      | none =>
        rw [ancestorsFrom_unknown found]
        refine ⟨some name, walked, List.prefix_refl met, ?_⟩
        rintro s ⟨⟩ known
        simp [isClass, found] at known
      | some c =>
        rw [ancestorsFrom_class found]
        split
        · rename_i old
          refine ⟨some name, walked, List.prefix_refl met, ?_⟩
          rintro s ⟨⟩ -
          exact old
        · rename_i new
          have longer : d.classes.length < (met ++ [name]).length + fuel := by
            rw [List.length_append, List.length_singleton]
            omega
          obtain ⟨last, walked', onward, closed⟩ := ih (walked.step found new) longer
          exact ⟨last, walked', (List.prefix_append met [name]).trans onward, closed⟩

end Walks

section Ancestors

variable {c e s : String}

/-- The chain of a class is a walk that starts there and ends where no new class comes next. -/
theorem ancestors_walked (known : d.isClass c = true) : ∃ rest last,
    d.ancestors c = c :: rest ∧ d.Walked (d.ancestors c) last ∧
      ∀ s ∈ last, d.isClass s = true → s ∈ d.ancestors c := by
  obtain ⟨entry, found⟩ := Option.isSome_iff_exists.1 known
  have first : d.Walked [c] entry.superclass := by
    have start : d.Walked [] (some c) := ⟨List.nodup_nil, nofun, .nil, nofun⟩
    exact start.step found nofun
  have chain : d.ancestors c = d.ancestorsFrom d.classes.length [c] entry.superclass := by
    rw [ancestors, ancestorsFrom_class found]
    rfl
  have room : d.classes.length < [c].length + d.classes.length := by simp
  obtain ⟨last, walked, ⟨rest, onward⟩, closed⟩ := first.ancestorsFrom room
  exact ⟨rest, last, chain ▸ onward.symm, chain ▸ walked, chain ▸ closed⟩

theorem ancestors_of_not_class (unknown : d.isClass c = false) : d.ancestors c = [] := by
  have none : d.class? c = none := by simpa [isClass] using unknown
  exact ancestorsFrom_unknown none

theorem mem_ancestors_self (known : d.isClass c = true) : c ∈ d.ancestors c := by
  obtain ⟨rest, -, start, -⟩ := ancestors_walked known
  exact start ▸ List.mem_cons_self

/-- Only classes have ancestors. -/
theorem isClass_of_mem_ancestors (member : s ∈ d.ancestors c) : d.isClass c = true := by
  by_contra unknown
  rw [ancestors_of_not_class (by simpa using unknown)] at member
  cases member

theorem ancestors_classes (member : s ∈ d.ancestors c) : d.isClass s = true := by
  obtain ⟨rest, last, -, walked, -⟩ := ancestors_walked (isClass_of_mem_ancestors member)
  exact walked.classes s member

theorem ancestors_nodup (d : Definitions) (c : String) : (d.ancestors c).Nodup := by
  cases known : d.isClass c with
  | true =>
    obtain ⟨rest, last, -, walked, -⟩ := ancestors_walked known
    exact walked.nodup
  | false =>
    rw [ancestors_of_not_class known]
    exact List.nodup_nil

theorem ancestors_chain (d : Definitions) (c : String) : (d.ancestors c).IsChain d.Extends := by
  cases known : d.isClass c with
  | true =>
    obtain ⟨rest, last, -, walked, -⟩ := ancestors_walked known
    exact walked.chain
  | false =>
    rw [ancestors_of_not_class known]
    exact .nil

/-- Every class of a chain is above all classes that stand before it. -/
theorem ancestors_above (d : Definitions) (c : String) :
    (d.ancestors c).Pairwise (TransGen d.Extends) :=
  ((ancestors_chain d c).imp fun _ _ => .single).pairwise

theorem reaches_of_mem_ancestors (member : s ∈ d.ancestors c) : ReflTransGen d.Extends c s := by
  obtain ⟨rest, -, start, -⟩ := ancestors_walked (isClass_of_mem_ancestors member)
  have above := ancestors_above d c
  rw [start] at member above
  rcases List.mem_cons.1 member with rfl | later
  · exact .refl
  · exact ((List.pairwise_cons.1 above).1 s later).to_reflTransGen

/-- With a class its superclass is on the chain. -/
theorem ancestors_closed (member : e ∈ d.ancestors c) (linked : d.Extends e s)
    (known : d.isClass s = true) : s ∈ d.ancestors c := by
  obtain ⟨rest, last, -, walked, closed⟩ := ancestors_walked (isClass_of_mem_ancestors member)
  obtain ⟨before, after, split⟩ := List.append_of_mem member
  cases after with
  | nil =>
    have final := walked.last e (by simp [split])
    exact closed s (final ▸ linked) known
  | cons f after =>
    have next : d.Extends e f := by
      have chain := walked.chain
      rw [split] at chain
      exact (List.isChain_append_cons_cons.1 chain).2.1
    obtain rfl : s = f := Option.some.inj (linked.symm.trans next)
    simp [split]

/-- What the superclasses of a class on the chain have on their chains is on the chain as well. -/
theorem ancestors_trans (first : e ∈ d.ancestors c) (second : s ∈ d.ancestors e) :
    s ∈ d.ancestors c := by
  obtain ⟨rest, -, start, -⟩ := ancestors_walked (isClass_of_mem_ancestors second)
  have chain := ancestors_chain d e
  have known : ∀ f ∈ d.ancestors e, d.isClass f = true := fun f => ancestors_classes
  rw [start] at second chain known
  clear start
  induction rest generalizing e with
  | nil => rwa [List.mem_singleton.1 second]
  | cons f rest ih =>
    obtain ⟨linked, chain⟩ := List.isChain_cons_cons.1 chain
    have step : f ∈ d.ancestors c := ancestors_closed first linked (known f (by simp))
    rcases List.mem_cons.1 second with rfl | later
    · exact first
    · exact ih step later chain fun g member => known g (List.mem_cons_of_mem e member)

theorem descendsFrom_iff : d.descendsFrom c s = true ↔ s ∈ d.ancestors c := List.contains_iff_mem

theorem descendsFrom_refl (known : d.isClass c = true) : d.descendsFrom c c = true :=
  descendsFrom_iff.2 (mem_ancestors_self known)

theorem descendsFrom_trans (first : d.descendsFrom c e = true) (second : d.descendsFrom e s = true) :
    d.descendsFrom c s = true :=
  descendsFrom_iff.2 (ancestors_trans (descendsFrom_iff.1 first) (descendsFrom_iff.1 second))

/-- Classes that descend from each other are one class, or they stand on a circle. -/
theorem descendsFrom_antisymm (up : d.descendsFrom c e = true) (down : d.descendsFrom e c = true) :
    c = e ∨ TransGen d.Extends c c := by
  have upward := reaches_of_mem_ancestors (descendsFrom_iff.1 up)
  have downward := reaches_of_mem_ancestors (descendsFrom_iff.1 down)
  rcases Relation.reflTransGen_iff_eq_or_transGen.1 upward with same | above
  · exact .inl same.symm
  · exact .inr (above.trans_left downward)

end Ancestors

section Openings

/-- What is recorded of a class: nothing if there is none, else its superclass. -/
def heading? (d : Definitions) (name : String) : Option (Option String) :=
  (d.class? name).map (·.superclass)

/-- The superclass of a class of the name, if the statement opens one. -/
def opening? (name : String) (e : Expr) : Option (Option String) :=
  match e.form with
  | .defClass c => if c.name == name then some (some (c.superclass.getD defaultSuperclass)) else none
  | _ => none

theorem isClass_eq (d : Definitions) (name : String) : d.isClass name = (d.heading? name).isSome := by
  simp [isClass, heading?]

theorem superclass?_eq (d : Definitions) (name : String) :
    d.superclass? name = (d.heading? name).join := by
  cases found : d.class? name <;> simp [superclass?, heading?, found]

/-- A method is entered at the end of its class. -/
theorem enterMethod_class? (d : Definitions) (owner : Option String) (m : MethodDef) (name : String) :
    (d.enterMethod owner m).class? name = (d.class? name).map fun c =>
      if owner == some c.name then { c with methods := c.methods ++ [⟨d.methods.size⟩] } else c := by
  have named : ((fun c : ClassEntry => c.name == name) ∘ fun c : ClassEntry =>
      if owner == some c.name then { c with methods := c.methods ++ [⟨d.methods.size⟩] } else c) =
      fun c => c.name == name := by
    funext c
    dsimp only [Function.comp]
    split <;> rfl
  rw [class?, enterMethod, List.find?_map, named, class?]

theorem enterMethod_heading? (d : Definitions) (owner : Option String) (m : MethodDef)
    (name : String) : (d.enterMethod owner m).heading? name = d.heading? name := by
  rw [heading?, enterMethod_class?, Option.map_map, heading?]
  congr 1
  funext c
  dsimp only [Function.comp]
  split <;> rfl

theorem enterMethods_heading? (d : Definitions) (owner : Option String) (ms : List MethodDef)
    (name : String) :
    (ms.foldl (fun d m => d.enterMethod owner m) d).heading? name = d.heading? name := by
  induction ms generalizing d with
  | nil => rfl
  | cons m ms ih => rw [List.foldl_cons, ih, enterMethod_heading?]

theorem openClass_heading? (d : Definitions) (c : ClassDef) (name : String) :
    (d.openClass c).heading? name = (d.heading? name).or
      (if c.name == name then some (some (c.superclass.getD defaultSuperclass)) else none) := by
  by_cases known : d.isClass c.name = true
  · rw [openClass, if_pos known]
    by_cases here : c.name = name
    · rw [here, isClass_eq] at known
      obtain ⟨h, found⟩ := Option.isSome_iff_exists.1 known
      rw [found, Option.some_or]
    · rw [if_neg (by simpa using here), Option.or_none]
  · rw [openClass, if_neg known, heading?, class?, List.find?_append, Option.map_or, heading?, class?]
    congr 1
    by_cases here : c.name = name <;> simp [here]

/-- A statement records a superclass for the class that it opens first, and for no other. -/
theorem enterStatement_heading? (d : Definitions) (e : Expr) (name : String) :
    (d.enterStatement e).heading? name = (d.heading? name).or (opening? name e) := by
  rw [enterStatement, opening?]
  split
  · rename_i form
    rw [enterMethod_heading?, form, Option.or_none]
  · rename_i form
    rw [enterMethods_heading?, openClass_heading?, form]
  · rename_i form
    rw [form, Option.or_none]
    rfl
  · rename_i form
    rw [form, Option.or_none]
    rfl
  · rename_i notClass _ _
    split
    · rename_i c form
      exact absurd form (notClass c)
    · rw [Option.or_none]

theorem enterStatements_heading? (d : Definitions) (es : List Expr) (name : String) :
    (es.foldl enterStatement d).heading? name = (d.heading? name).or (es.findSome? (opening? name)) := by
  induction es generalizing d with
  | nil => simp
  | cons e es ih =>
    rw [List.foldl_cons, ih, enterStatement_heading?, Option.or_assoc, List.findSome?_cons]
    cases opening? name e <;> simp

variable {bodies : List (List Expr)}

/-- A class is recorded as it is builtin, or else as its first opening has it. -/
theorem ofBodies_heading? (collected : ofBodies bodies = .ok d) (name : String) :
    d.heading? name = (builtin.heading? name).or (bodies.flatten.findSome? (opening? name)) := by
  obtain ⟨rfl, -⟩ := ofBodies_steps collected
  exact enterStatements_heading? builtin bodies.flatten name

/-- A text that reads and has sound declarations has tables; what was computed of both holds. -/
theorem exists_module (text : String) (p : Module → Definitions → Bool)
    (holds : (match Module.read ⟨0⟩ text with
      | .ok (m, _) => (ofBodies [m.body]).toOption.any (p m)
      | .error _ => false) = true) :
    ∃ m next d, Module.read ⟨0⟩ text = .ok (m, next) ∧ ofBodies [m.body] = .ok d ∧ p m d = true := by
  cases read : Module.read ⟨0⟩ text with
  | error e =>
    rw [read] at holds
    cases holds
  | ok result =>
    rw [read] at holds
    obtain ⟨d, collected, sound⟩ := exists_value _ _ holds
    exact ⟨result.1, result.2, d, rfl, collected, sound⟩

theorem exists_collected (text : String) (p : Definitions → Bool)
    (holds : (match Module.read ⟨0⟩ text with
      | .ok (m, _) => (ofBodies [m.body]).toOption.any p
      | .error _ => false) = true) :
    ∃ m next d, Module.read ⟨0⟩ text = .ok (m, next) ∧ ofBodies [m.body] = .ok d ∧ p d = true :=
  exists_module text (fun _ => p) holds

/-- The superclass of every class is a class, and only `Object` has none. -/
structure Rooted (d : Definitions) : Prop where
  root : d.isClass "Object" = true
  top : d.superclass? "Object" = none
  below : ∀ c, d.isClass c = true → c ≠ "Object" → ∃ s, d.Extends c s ∧ d.isClass s = true

theorem builtin_isClass (collected : ofBodies bodies = .ok d) {name : String}
    (known : builtin.isClass name = true) : d.isClass name = true := by
  rw [isClass_eq] at known ⊢
  rw [ofBodies_heading? collected, Option.isSome_or, known, Bool.true_or]

theorem ofBodies_rooted (collected : ofBodies bodies = .ok d) : d.Rooted where
  root := builtin_isClass collected (by decide)
  top := by
    have object : builtin.heading? "Object" = some none := by decide
    rw [superclass?_eq, ofBodies_heading? collected, object]
    rfl
  below := by
    intro c known other
    rw [isClass_eq] at known
    obtain ⟨h, recorded⟩ := Option.isSome_iff_exists.1 known
    have above (s : String) (same : h = some s) : d.Extends c s := by
      rw [Extends, superclass?_eq, recorded, same]
      rfl
    rw [ofBodies_heading? collected, Option.or_eq_some_iff] at recorded
    rcases recorded with old | ⟨-, new⟩
    · have heads : ∀ b ∈ builtinClasses, b.1 = "Object" ∨
          b.2.any (fun s => builtin.isClass s) = true := by decide
      obtain ⟨entry, found, rfl⟩ := Option.map_eq_some_iff.1 old
      obtain ⟨b, listed, rfl⟩ := List.mem_map.1 (List.mem_of_find?_eq_some found)
      have named : b.1 = c := class?_name found
      obtain ⟨s, same, there⟩ := (Option.any_eq_true _ _).1
        ((heads b listed).resolve_left (named ▸ other))
      exact ⟨s, above s same, builtin_isClass collected there⟩
    · obtain ⟨e, member, opened⟩ := List.exists_of_findSome?_eq_some new
      rw [opening?] at opened
      split at opened
      · rename_i k form
        split at opened
        · cases opened
          refine ⟨_, above _ rfl, ?_⟩
          cases declared : k.superclass with
          | none => exact builtin_isClass collected (by decide)
          | some s =>
            have stated : declaredSuperclass? e = some (k.name, s, k.nameSpan) := by
              rw [declaredSuperclass?, form]
              simp [declared]
            exact (ofBodies_steps collected).2 e member _ _ _ stated
        · cases opened
      · cases opened

end Openings

section Hierarchy

variable {c e s : String}

/-- What is above a class on a circle is on that circle. -/
theorem circle_upward (circle : TransGen d.Extends c c) (above : ReflTransGen d.Extends c e) :
    TransGen d.Extends e e := by
  induction above with
  | refl => exact circle
  | @tail e s _ step ih =>
    obtain ⟨f, first, back⟩ := Relation.TransGen.head'_iff.1 ih
    obtain rfl : f = s := Option.some.inj (first.symm.trans step)
    exact .tail' back step

/-- Where all superclasses are classes, everything above a class is on its chain. -/
theorem Rooted.mem_ancestors (rooted : d.Rooted) (known : d.isClass c = true)
    (above : ReflTransGen d.Extends c s) : s ∈ d.ancestors c := by
  induction above with
  | refl => exact mem_ancestors_self known
  | @tail e s _ step member =>
    have other : e ≠ "Object" := by
      rintro rfl
      exact Option.some_ne_none s (step.symm.trans rooted.top)
    obtain ⟨f, linked, there⟩ := rooted.below e (ancestors_classes member) other
    obtain rfl : s = f := Option.some.inj (step.symm.trans linked)
    exact ancestors_closed member step there

theorem Rooted.not_circular (rooted : d.Rooted) (object : d.descendsFrom c "Object" = true) :
    ¬ d.Circular c := by
  rintro ⟨e, above, circle⟩
  have upward := reaches_of_mem_ancestors (descendsFrom_iff.1 object)
  have unique : Relator.RightUnique d.Extends := fun _ _ _ first second =>
    Option.some.inj (first.symm.trans second)
  have atTop : TransGen d.Extends "Object" "Object" := by
    rcases upward.total_of_right_unique unique above with onward | back
    · rcases onward.cases_head with rfl | ⟨s, step, -⟩
      · exact circle
      · exact absurd (step.symm.trans rooted.top) (Option.some_ne_none s)
    · exact circle_upward circle back
  obtain ⟨s, step, -⟩ := Relation.TransGen.head'_iff.1 atTop
  exact Option.some_ne_none s (step.symm.trans rooted.top)

/-- A chain that leads into no circle ends with `Object`. -/
theorem Rooted.getLast?_ancestors (rooted : d.Rooted) (known : d.isClass c = true)
    (straight : ¬ d.Circular c) : (d.ancestors c).getLast? = some "Object" := by
  obtain ⟨rest, -, start, -⟩ := ancestors_walked known
  obtain ⟨before, last, split⟩ : ∃ before last, d.ancestors c = before ++ [last] :=
    (List.eq_nil_or_concat' _).resolve_left (by simp [start])
  rw [split, List.getLast?_concat]
  by_contra other
  have member : last ∈ d.ancestors c := by simp [split]
  obtain ⟨s, linked, there⟩ := rooted.below last (ancestors_classes member) fun same =>
    other (same ▸ rfl)
  have back : ReflTransGen d.Extends s last := by
    have inside := ancestors_closed member linked there
    rw [split] at inside
    rcases List.mem_append.1 inside with earlier | same
    · have above := ancestors_above d c
      rw [split] at above
      exact ((List.pairwise_append.1 above).2.2 s earlier last (by simp)).to_reflTransGen
    · rw [List.mem_singleton.1 same]
  exact straight ⟨last, reaches_of_mem_ancestors member, .head' linked back⟩

/-- The chain of every class starts with it, repeats nothing and follows the recorded superclasses;
it ends with `Object`, and the class descends from `Object`, unless it leads into a circle of classes.
Descending is reflexive on classes and transitive, and only classes on a circle descend from each
other without being the same. -/
theorem hierarchy_is_tree_unless_circular {bodies : List (List Expr)}
    (collected : ofBodies bodies = .ok d) :
    (∀ c, d.isClass c = true →
      (d.ancestors c).head? = some c ∧ (d.ancestors c).Nodup ∧
        (d.ancestors c).IsChain d.Extends ∧ d.descendsFrom c c = true ∧
        ((d.ancestors c).getLast? = some "Object" ↔ ¬ d.Circular c) ∧
        (d.descendsFrom c "Object" = true ↔ ¬ d.Circular c)) ∧
    (∀ c e s, d.descendsFrom c e = true → d.descendsFrom e s = true → d.descendsFrom c s = true) ∧
    ∀ c e, d.descendsFrom c e = true → d.descendsFrom e c = true →
      c = e ∨ TransGen d.Extends c c := by
  have rooted := ofBodies_rooted collected
  refine ⟨fun c known => ?_, fun c e s => descendsFrom_trans, fun c e => descendsFrom_antisymm⟩
  obtain ⟨rest, -, start, -⟩ := ancestors_walked known
  have ends (straight : ¬ d.Circular c) := rooted.getLast?_ancestors known straight
  have object (last : (d.ancestors c).getLast? = some "Object") : d.descendsFrom c "Object" = true :=
    descendsFrom_iff.2 (List.mem_of_getLast? last)
  refine ⟨by rw [start, List.head?_cons], ancestors_nodup d c, ancestors_chain d c,
    descendsFrom_refl known, ⟨fun last => ?_, ends⟩, ⟨rooted.not_circular, fun straight => ?_⟩⟩
  · exact rooted.not_circular (object last)
  · exact object (ends straight)

/-- Two classes name each other as superclass, a third one leads to them, and a fourth does not. -/
def circleText : String :=
  "class Hen < Egg\nend\nclass Egg < Hen\nend\nclass Chick < Egg\nend\nclass Nest\nend\n"

theorem circleText_hierarchy : ∃ m next d, Module.read ⟨0⟩ circleText = .ok (m, next) ∧
    ofBodies [m.body] = .ok d ∧ d.Circular "Chick" ∧ ¬ d.Circular "Nest" ∧
      TransGen d.Extends "Hen" "Hen" := by
  obtain ⟨m, next, d, read, collected, holds⟩ := exists_collected circleText
    (fun d => d.isClass "Chick" && d.isClass "Nest" && !d.descendsFrom "Chick" "Object" &&
      d.descendsFrom "Nest" "Object" && d.descendsFrom "Hen" "Egg" && d.descendsFrom "Egg" "Hen")
    (by decide +kernel)
  simp only [Bool.and_eq_true, Bool.not_eq_true'] at holds
  obtain ⟨⟨⟨⟨⟨chick, nest⟩, lost⟩, kept⟩, up⟩, down⟩ := holds
  obtain ⟨chains, -, antisymm⟩ := hierarchy_is_tree_unless_circular collected
  obtain ⟨-, -, -, -, -, chickObject⟩ := chains "Chick" chick
  obtain ⟨-, -, -, -, -, nestObject⟩ := chains "Nest" nest
  refine ⟨m, next, d, read, collected, ?_, nestObject.1 kept, ?_⟩
  · by_contra straight
    rw [chickObject.2 straight] at lost
    cases lost
  · exact (antisymm "Hen" "Egg" up down).resolve_left (by decide)

end Hierarchy

end TypedBlocks.Definitions

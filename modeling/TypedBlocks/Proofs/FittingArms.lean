import TypedBlocks.Proofs.CurrentObjects
import TypedBlocks.Proofs.TypedOperations
import TypedBlocks.Proofs.TypedPrograms

/-!
# The arm that fits

A call on unions has an arm for each choice of members of the types of its operands, and values choose
among the arms by their classes. In a compiled program the members of a type have no values in
common, so there is one arm for the types that the values are of. It fits them, and no other arm does
unless an object passes for a value of a simple type.
-/
namespace TypedBlocks

namespace Value

/-- The simple type that the value is of. -/
def simple? : Value → Option SimpleTy
  | nil => some .nil
  | int _ => some .int
  | float _ => some .float
  | bool _ => some .bool
  | char _ => some .char
  | string _ => some .string
  | object _ => none
  | classObject c => some (.classOf c)
  | main => some .main

/-- The value is an object of the class that the values of a simple member of the type belong to. -/
def PosesIn (v : Value) (t : Ty) : Prop :=
  ∃ r s, v = .object r ∧ .simple s ∈ t.members ∧ s.className = r.className

variable {v : Value} {m n t : Ty} {s : SimpleTy}

theorem isOfMember_simple : v.isOfMember (.simple s) = true ↔ v.simple? = some s := by
  cases v <;> cases s <;> simp [isOfMember, simple?]
  exact eq_comm

theorem isOfMember_object {c : String} {vs : List (String × Ty)} :
    v.isOfMember (.object c vs) = true ↔ ∃ r, v = .object r ∧ c = r.className := by
  cases v <;> simp [isOfMember]

/-- Members that have a value in common are the same simple type or objects of the same class. -/
theorem members_of_common (first : v.isOfMember m = true) (second : v.isOfMember n = true) :
    (∃ s, m = .simple s ∧ n = .simple s) ∨ ∃ c vs ws, m = .object c vs ∧ n = .object c ws := by
  cases m with
  | union ts => cases first
  | simple s =>
    have own := isOfMember_simple.1 first
    cases n with
    | union ts => cases second
    | simple s' =>
      obtain rfl := Option.some.inj (own.symm.trans (isOfMember_simple.1 second))
      exact .inl ⟨s, rfl, rfl⟩
    | object c vs =>
      obtain ⟨r, rfl, -⟩ := isOfMember_object.1 second
      cases own
  | object c vs =>
    obtain ⟨r, rfl, rfl⟩ := isOfMember_object.1 first
    cases n with
    | union ts => cases second
    | simple s => cases isOfMember_simple.1 second
    | object d ws =>
      obtain ⟨_, ⟨⟩, rfl⟩ := isOfMember_object.1 second
      exact .inr ⟨_, vs, ws, rfl, rfl⟩

/-- Where the value does not pose, dispatch sees what it is. -/
theorem isInstanceOf_eq_isOfMember (honest : ¬ v.PosesIn t) (member : m ∈ t.members) :
    v.isInstanceOf m = v.isOfMember m := by
  cases m with
  | union ts => cases v <;> rfl
  | object c vs => cases v <;> rfl
  | simple s =>
    cases v with
    | object r =>
      have apart : s.className ≠ r.className := fun same => honest ⟨r, s, rfl, member, same⟩
      cases s <;> exact beq_eq_false_iff_ne.2 apart
    | _ => cases s <;> rfl

end Value

namespace Ty

/-- No two members of the type have a value in common. -/
def Separate (t : Ty) : Prop :=
  ∀ v : Value, t.members.Pairwise fun m n => ¬ (v.isOfMember m = true ∧ v.isOfMember n = true)

variable {v : Value} {t m : Ty}

theorem Current.separate {L : List (String × List (String × Ty))} (known : KnownLayouts L)
    (current : t.Current L) : t.Separate := by
  intro v
  refine (current.reduced.different.and (current.oncePerClass known)).imp ?_
  rintro m n ⟨different, apart⟩ ⟨first, second⟩
  rcases Value.members_of_common first second with ⟨s, rfl, rfl⟩ | ⟨c, vs, ws, rfl, rfl⟩
  · exact different (Proper.simple s).refl
  · exact apart c vs ws rfl rfl

theorem Separate.filter_isOfMember (separate : t.Separate) (member : m ∈ t.members)
    (fits : v.isOfMember m = true) : t.members.filter v.isOfMember = [m] := by
  have there : m ∈ t.members.filter v.isOfMember := List.mem_filter.2 ⟨member, fits⟩
  have apart := (separate v).filter v.isOfMember
  have each : ∀ n ∈ t.members.filter v.isOfMember, v.isOfMember n = true :=
    fun n inside => (List.mem_filter.1 inside).2
  generalize t.members.filter v.isOfMember = ms at there apart each
  rcases ms with _ | ⟨n, _ | ⟨n', rest⟩⟩
  · cases there
  · rw [List.mem_singleton.1 there]
  · exact absurd ⟨each n (by simp), each n' (by simp)⟩ ((List.pairwise_cons.1 apart).1 n' (by simp))

/-- The member that a value is of is the only one that dispatch finds unless the value poses. -/
theorem Separate.filter_isInstanceOf_iff (separate : t.Separate) (member : m ∈ t.members)
    (fits : v.isOfMember m = true) : t.members.filter v.isInstanceOf = [m] ↔ ¬ v.PosesIn t := by
  constructor
  · rintro only ⟨r, s, rfl, simple, same⟩
    have passes : (Value.object r).isInstanceOf (.simple s) = true := by
      cases s <;> exact beq_iff_eq.2 same
    have found : .simple s ∈ t.members.filter (Value.object r).isInstanceOf :=
      List.mem_filter.2 ⟨simple, passes⟩
    rw [only, List.mem_singleton] at found
    rw [← found, Value.isOfMember_simple] at fits
    cases fits
  · intro honest
    rw [List.filter_congr fun n inside => Value.isInstanceOf_eq_isOfMember honest inside]
    exact separate.filter_isOfMember member fits

end Ty

section Choices

variable {vs : List Value} {ts c : List Ty} {tss : List (List Ty)} {t : Ty}

/-- To choose among some of the choices is to choose from fewer members. -/
theorem choices_filter (p : Value → Ty → Bool) (sizes : vs.length = tss.length) :
    (choices tss).filter (fun c => (c.zip vs).all fun (t, v) => p v t) =
      choices (List.zipWith (fun v ts => ts.filter (p v)) vs tss) := by
  induction tss generalizing vs with
  | nil =>
    cases List.length_eq_zero_iff.1 sizes
    rfl
  | cons ts tss ih =>
    cases vs with
    | nil => cases sizes
    | cons v vs =>
      rw [List.zipWith_cons_cons, choices, choices, ← ih (Nat.succ.inj sizes)]
      clear sizes
      induction ts with
      | nil => rfl
      | cons t ts rest =>
        rw [List.flatMap_cons, List.filter_append, rest, List.filter_map, List.filter_cons]
        cases passes : p v t with
        | true => simp [Function.comp_def, passes]
        | false => simp [Function.comp_def, passes]

theorem choices_cons_eq_singleton :
    choices (ts :: tss) = [t :: c] ↔ ts = [t] ∧ choices tss = [c] := by
  constructor
  · intro only
    have sizes : ts.length * (choices tss).length = 1 := by
      have sizes := congrArg List.length only
      rw [choices, List.length_flatMap] at sizes
      simpa using sizes
    obtain ⟨u, rfl⟩ := List.length_eq_one_iff.1 (Nat.eq_one_of_mul_eq_one_right sizes)
    obtain ⟨d, single⟩ := List.length_eq_one_iff.1 (Nat.eq_one_of_mul_eq_one_left sizes)
    rw [choices, single] at only
    cases only
    exact ⟨rfl, single⟩
  · rintro ⟨rfl, single⟩
    rw [choices, single]
    rfl

/-- Values of types make one choice of members, and to dispatch they make no other one unless some
value poses. -/
theorem choice_of_separate (separate : ∀ t ∈ ts, t.Separate)
    (fits : List.Forall₂ (fun v t => v.isOf t = true) vs ts) :
    ∃ c, List.Forall₂ (fun v t => v.isOfMember t = true) vs c ∧
      choices (List.zipWith (fun v ts => ts.filter v.isOfMember) vs (ts.map Ty.members)) = [c] ∧
      (choices (List.zipWith (fun v ts => ts.filter v.isInstanceOf) vs (ts.map Ty.members)) = [c] ↔
        List.Forall₂ (fun v t => ¬ v.PosesIn t) vs ts) := by
  induction fits with
  | nil => exact ⟨[], .nil, rfl, iff_of_true rfl .nil⟩
  | @cons v t vs ts first _ ih =>
    rw [List.forall_mem_cons] at separate
    obtain ⟨m, member, own⟩ := Ty.isOf_iff.1 first
    obtain ⟨c, owns, only, honest⟩ := ih separate.2
    refine ⟨m :: c, .cons own owns, ?_, ?_⟩
    · exact choices_cons_eq_singleton.2 ⟨separate.1.filter_isOfMember member own, only⟩
    · rw [List.map_cons, List.zipWith_cons_cons, choices_cons_eq_singleton, honest,
        separate.1.filter_isInstanceOf_iff member own, List.forall₂_cons]

end Choices

namespace Typed

variable {vs : List Value} {ts : List Ty} {arms : List Arm}

/-- Every value is of the type at its place in the arm. -/
def Arm.owns (values : List Value) (arm : Arm) : Bool :=
  (arm.types.zip values).all fun (t, v) => v.isOfMember t

theorem Arm.fits_of_owns {arm : Arm} (owns : arm.owns vs = true) : arm.fits vs = true := by
  rw [Arm.owns, List.all_eq_true] at owns
  rw [Arm.fits, List.all_eq_true]
  exact fun b there => Value.isInstanceOf_of_member (owns b there)

/-- Arms for all choices of members of separate types take each tuple of values of these types apart. -/
theorem arms_of_separate (all : arms.map (·.types) = choices (ts.map Ty.members))
    (separate : ∀ t ∈ ts, t.Separate)
    (fits : List.Forall₂ (fun v t => v.isOf t = true) vs ts) :
    ∃ arm : Arm, List.Forall₂ (fun v t => v.isOfMember t = true) vs arm.types ∧
      arms.filter (Arm.owns vs) = [arm] ∧
      (arms.filter (Arm.fits vs) = [arm] ↔ List.Forall₂ (fun v t => ¬ v.PosesIn t) vs ts) := by
  have sizes : vs.length = (ts.map Ty.members).length := by rw [List.length_map, fits.length_eq]
  have chosen (p : Value → Ty → Bool) :
      (arms.filter fun arm => (arm.types.zip vs).all fun (t, v) => p v t).map (·.types) =
        choices (List.zipWith (fun v ts => ts.filter (p v)) vs (ts.map Ty.members)) := by
    rw [← choices_filter p sizes, ← all, List.filter_map]
    rfl
  obtain ⟨c, own, only, honest⟩ := choice_of_separate separate fits
  obtain ⟨arm, alone, rfl⟩ := List.map_eq_singleton_iff.1 ((chosen Value.isOfMember).trans only)
  refine ⟨arm, own, alone, ?_⟩
  rw [← honest, ← chosen Value.isInstanceOf]
  constructor
  · intro single
    exact congrArg (List.map (·.types)) single
  · intro single
    obtain ⟨other, found, -⟩ := List.map_eq_singleton_iff.1 single
    obtain ⟨listed, owns⟩ := List.mem_filter.1 (alone ▸ List.mem_singleton.2 rfl : arm ∈ arms.filter _)
    have there : arm ∈ arms.filter (Arm.fits vs) := List.mem_filter.2 ⟨listed, Arm.fits_of_owns owns⟩
    have found : arms.filter (Arm.fits vs) = [other] := found
    rw [found, List.mem_singleton] at there
    rw [found, there]

end Typed

namespace Compilation

open Inference

variable {options : Options} {text : String} {ds ds' : Diagnostics} {c : Compilation}

/-- All types of a program that is compiled without old snapshots of objects are separate. -/
theorem compiled_separate (compiled : ofText options text ds = (.ok c, ds'))
    (plain : textReturnsObjects options text ds = false) {e : Typed.Expr} (within : c.program.Within e)
    {t : Ty} (typed : e.ty = some t) : t.Separate := by
  obtain ⟨modules, ds₁, read, compiled⟩ := ofText_steps compiled
  obtain ⟨definitions, collected, -⟩ := ofBodies_inferred compiled
  have foreign : ∀ f ∈ definitions.foreigns, f.returnsObject = false := by
    simpa [textReturnsObjects, read, collected] using plain
  obtain ⟨ts, body, s, known, made, -, sorted, main⟩ := ofBodies_current compiled collected foreign
  obtain ⟨m, member, inside⟩ := within
  rw [made] at member
  have each := madeProgram_ofSort (current_closed known foreign) sorted main m member
  have mentioned : t ∈ e.types := List.mem_append_left _ (Option.mem_toList.2 typed)
  exact (each.2 e inside t mentioned).separate known

/-- A call on unions in a compiled program finds the arm of the types that its operands are of. The
operands have types, and values of these types are of the types of exactly one arm. This arm fits
them, and it is the only one that does exactly if no object among them has the class of a simple
member of its type. No library function is taken to return objects. -/
theorem compiled_dispatch_finds_own_arm (compiled : ofText options text ds = (.ok c, ds'))
    (plain : textReturnsObjects options text ds = false) {ty : Option Ty} {operands : List Typed.Expr}
    {temps : List Typed.SlotId} {arms : List Typed.Arm}
    (within : c.program.Within ⟨ty, .dispatch operands temps arms⟩) :
    ∃ ts : List Ty, operands.map (·.ty) = ts.map some ∧
      ∀ vs, List.Forall₂ (fun v t => v.isOf t = true) vs ts →
        ∃ arm : Typed.Arm, List.Forall₂ (fun v t => v.isOfMember t = true) vs arm.types ∧
          arms.filter (Typed.Arm.owns vs) = [arm] ∧ arm.fits vs = true ∧
          (arms.filter (Typed.Arm.fits vs) = [arm] ↔
            List.Forall₂ (fun v t => ¬ v.PosesIn t) vs ts) := by
  obtain ⟨modules, ds₁, read, compiled'⟩ := ofText_steps compiled
  obtain ⟨globals, constants, wellTyped⟩ := ofBodies_typed compiled'
  obtain ⟨m, member, inside⟩ := within
  obtain ⟨Γ, ⟨rule, -⟩⟩ := (wellTyped.method member).body.inside inside
  obtain ⟨-, ⟨ts, types, all⟩, -⟩ := rule
  refine ⟨ts, types, fun vs fits => ?_⟩
  have separate : ∀ t ∈ ts, t.Separate := by
    intro t there
    obtain ⟨e, operand, typed⟩ := List.mem_map.1 (types ▸ List.mem_map_of_mem there)
    have part : e ∈ (Typed.Node.dispatch operands temps arms).parts :=
      List.mem_append_left _ (List.mem_append_left _ operand)
    exact compiled_separate compiled plain
      (Typed.Program.Within.part ⟨m, member, inside⟩ part) typed
  obtain ⟨arm, own, alone, honest⟩ := Typed.arms_of_separate all separate fits
  exact ⟨arm, own, alone, Typed.Arm.fits_of_members own, honest⟩

/-- The node is a call on one operand, and both values are of the type of that. -/
def takesBoth (v w : Value) : Typed.Node → Bool
  | .dispatch operands _ _ =>
    operands.map (·.ty.map fun t => v.isOf t && w.isOf t) == [some true]
  | _ => false

/-- A variable that holds a class or an object of the class of classes. -/
def posingText : String :=
  "class Foo\nend\nclass Class\n  def new\n    7\n  end\nend\nx = Foo\nx = Class.new\nx.new\n"

theorem posingText_dispatch : ∃ c ds ty operands temps arms,
    ofText ⟨false, Limits.standard⟩ posingText Diagnostics.empty = (.ok c, ds) ∧
      textReturnsObjects ⟨false, Limits.standard⟩ posingText Diagnostics.empty = false ∧
      c.program.Within ⟨ty, .dispatch operands temps arms⟩ ∧
      (∃ arm, arms.filter (Typed.Arm.fits [.classObject "Foo"]) = [arm]) ∧
      ∃ arm, arms.filter (Typed.Arm.owns [.object ⟨0, "Class"⟩]) = [arm] ∧
        arms.filter (Typed.Arm.fits [.object ⟨0, "Class"⟩]) ≠ [arm] := by
  have plain : textReturnsObjects ⟨false, Limits.standard⟩ posingText Diagnostics.empty = false := by
    decide +kernel
  obtain ⟨c, ds, result, holds⟩ := exists_compiled ⟨false, Limits.standard⟩ posingText
    (fun c => c.program.main.body.node.parts.any fun e =>
      takesBoth (.classObject "Foo") (.object ⟨0, "Class"⟩) e.node)
    (by decide +kernel)
  obtain ⟨⟨ty, node⟩, part, shape⟩ := List.any_eq_true.1 holds
  cases node with
  | dispatch operands temps arms =>
    obtain ⟨x, rfl, typed⟩ := List.map_eq_singleton_iff.1 (beq_iff_eq.1 shape)
    obtain ⟨t, typed, both⟩ := Option.map_eq_some_iff.1 typed
    obtain ⟨classOf, object⟩ := Bool.and_eq_true_iff.1 both
    have within := Typed.Program.Within.part ⟨c.program.main, List.mem_cons_self, .self _⟩ part
    obtain ⟨ts, types, finds⟩ := compiled_dispatch_finds_own_arm result plain within
    obtain ⟨u, rfl, same⟩ := List.map_eq_singleton_iff.1 types.symm
    cases same.trans typed
    refine ⟨c, ds, _, _, _, _, result, plain, within, ?_, ?_⟩
    · obtain ⟨arm, -, -, -, honest⟩ := finds [.classObject "Foo"] (.cons classOf .nil)
      exact ⟨arm, honest.2 (.cons (by rintro ⟨r, s, ⟨⟩, -⟩) .nil)⟩
    · obtain ⟨arm, -, own, -, honest⟩ := finds [.object ⟨0, "Class"⟩] (.cons object .nil)
      refine ⟨arm, own, fun only => (List.forall₂_cons.1 (honest.1 only)).1 ?_⟩
      -- The member that the class is of is the simple one that the object poses in.
      obtain ⟨m, member, fits⟩ := Ty.isOf_iff.1 classOf
      cases m with
      | simple s =>
        cases Value.isOfMember_simple.1 fits
        exact ⟨_, _, rfl, member, rfl⟩
      | object => cases fits
      | union => cases fits
  | _ => cases shape

end Compilation

end TypedBlocks

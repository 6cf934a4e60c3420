import TypedBlocks.Program.Dispatch

/-!
# Tables of definitions

The tables that are collected from a program refer to each other correctly: a method stands at the
index of its number, a class lists methods that it owns, and the functions of the top level are
owned by nobody. So dispatch finds a function without an owner only where no receiver is written.
-/
namespace TypedBlocks

namespace Definitions

/-- The numbers in the tables mean what they say. -/
structure Consistent (d : Definitions) : Prop where
  numbered : ∀ (i : Nat) (m : MethodEntry), d.methods[i]? = some m → m.id = ⟨i⟩
  owned : ∀ c ∈ d.classes, ∀ id ∈ c.methods, ∃ m, d.method? id = some m ∧ m.owner = some c.name
  ownerless : ∀ id ∈ d.globals, ∃ m, d.method? id = some m ∧ m.owner = none
  yields : ∀ (i : Nat) (m : MethodEntry), d.methods[i]? = some m → m.yields = m.definition.yields

theorem builtin_consistent : builtin.Consistent where
  numbered := by simp [builtin]
  owned := by
    intro c member id listed
    obtain ⟨entry, -, rfl⟩ := List.mem_map.1 member
    simp at listed
  ownerless := by simp [builtin]
  yields := by simp [builtin]

theorem openClass_consistent {d : Definitions} (c : ClassDef) (consistent : d.Consistent) :
    (d.openClass c).Consistent := by
  rw [openClass]
  split
  · exact consistent
  · refine ⟨consistent.numbered, ?_, consistent.ownerless, consistent.yields⟩
    intro entry member id listed
    simp only [List.mem_append, List.mem_singleton] at member
    rcases member with member | rfl
    · exact consistent.owned entry member id listed
    · simp at listed

/-- An entry keeps its place when another method is entered. -/
theorem enterMethod_method? {d : Definitions} (owner : Option String) (m : MethodDef)
    {id : MethodId} {entry : MethodEntry} (found : d.method? id = some entry) :
    (d.enterMethod owner m).method? id = some entry := by
  simp only [method?, enterMethod] at found ⊢
  rw [Array.getElem?_push_lt (Array.getElem?_eq_some_iff.1 found).1]
  simpa using (Array.getElem?_eq_some_iff.1 found).2

theorem enterMethod_new (d : Definitions) (owner : Option String) (m : MethodDef) :
    (d.enterMethod owner m).method? ⟨d.methods.size⟩ =
      some ⟨⟨d.methods.size⟩, owner, m, m.yields⟩ := by
  simp [method?, enterMethod]

theorem enterMethod_consistent {d : Definitions} (owner : Option String) (m : MethodDef)
    (consistent : d.Consistent) : (d.enterMethod owner m).Consistent := by
  have entries {i : Nat} {entry : MethodEntry}
      (found : (d.enterMethod owner m).methods[i]? = some entry) :
      d.methods[i]? = some entry ∨ (i = d.methods.size ∧
        entry = ⟨⟨d.methods.size⟩, owner, m, m.yields⟩) := by
    simp only [enterMethod, Array.getElem?_push] at found
    split at found
    · rename_i last
      exact .inr ⟨last, (Option.some.inj found).symm⟩
    · exact .inl found
  refine ⟨?_, ?_, ?_, ?_⟩
  · intro i entry found
    rcases entries found with old | ⟨rfl, rfl⟩
    · exact consistent.numbered i entry old
    · rfl
  · intro c member id listed
    simp only [enterMethod, List.mem_map] at member
    obtain ⟨c', member, rfl⟩ := member
    split at listed
    · rename_i owns
      simp only [List.mem_append, List.mem_singleton] at listed
      rcases listed with listed | rfl
      · obtain ⟨entry, found, owned⟩ := consistent.owned c' member id listed
        exact ⟨entry, enterMethod_method? owner m found, by simpa [owns] using owned⟩
      · refine ⟨_, enterMethod_new d owner m, ?_⟩
        rw [if_pos owns]
        simpa using owns
    · rename_i other
      obtain ⟨entry, found, owned⟩ := consistent.owned c' member id listed
      exact ⟨entry, enterMethod_method? owner m found, by simpa [other] using owned⟩
  · intro id listed
    simp only [enterMethod] at listed
    split at listed
    · rename_i nobody
      simp only [List.mem_append, List.mem_singleton] at listed
      rcases listed with listed | rfl
      · obtain ⟨entry, found, owned⟩ := consistent.ownerless id listed
        exact ⟨entry, enterMethod_method? owner m found, owned⟩
      · exact ⟨_, enterMethod_new d owner m, by simpa using nobody⟩
    · obtain ⟨entry, found, owned⟩ := consistent.ownerless id listed
      exact ⟨entry, enterMethod_method? owner m found, owned⟩
  · intro i entry found
    rcases entries found with old | ⟨rfl, rfl⟩
    · exact consistent.yields i entry old
    · rfl

theorem enterMethods_consistent {d : Definitions} (owner : Option String) (ms : List MethodDef)
    (consistent : d.Consistent) :
    (ms.foldl (fun d m => d.enterMethod owner m) d).Consistent := by
  induction ms generalizing d with
  | nil => exact consistent
  | cons m ms ih => exact ih (enterMethod_consistent owner m consistent)

theorem enterStatement_consistent {d : Definitions} (e : Expr) (consistent : d.Consistent) :
    (d.enterStatement e).Consistent := by
  rw [enterStatement]
  split
  · exact enterMethod_consistent none _ consistent
  · exact enterMethods_consistent _ _ (openClass_consistent _ consistent)
  · exact ⟨consistent.numbered, consistent.owned, consistent.ownerless, consistent.yields⟩
  · exact ⟨consistent.numbered, consistent.owned, consistent.ownerless, consistent.yields⟩
  · exact consistent

section Bodies

variable {bodies : List (List Expr)} {d : Definitions}

/-- The tables collected from a program have all its statements entered into the builtin ones, and
every superclass that a statement declares is a class of them. -/
theorem ofBodies_steps (collected : ofBodies bodies = .ok d) :
    d = bodies.flatten.foldl enterStatement builtin ∧
      ∀ e ∈ bodies.flatten, ∀ c s span, declaredSuperclass? e = some (c, s, span) →
        d.isClass s = true := by
  simp only [ofBodies] at collected
  split at collected
  · rename_i sound
    cases collected
    refine ⟨rfl, fun e member c s span declared => ?_⟩
    cases known : (bodies.flatten.foldl enterStatement builtin).isClass s with
    | true => rfl
    | false =>
      have there : StaticError.unknownSuperclass c s span ∈
          (bodies.flatten.filterMap declaredSuperclass?).filterMap fun x =>
            if (bodies.flatten.foldl enterStatement builtin).isClass x.2.1 then none
            else some (StaticError.unknownSuperclass x.1 x.2.1 x.2.2) :=
        List.mem_filterMap.2
          ⟨_, List.mem_filterMap.2 ⟨e, member, declared⟩, if_neg (by simp [known])⟩
      rw [List.isEmpty_iff.1 sound] at there
      cases there
  · cases collected

/-- What the builtin tables have and every statement keeps holds of the tables of a program. -/
theorem ofBodies_kept {P : Definitions → Prop} (start : P builtin)
    (keeps : ∀ d e, P d → P (d.enterStatement e)) (collected : ofBodies bodies = .ok d) : P d := by
  obtain ⟨rfl, -⟩ := ofBodies_steps collected
  generalize builtin = d at start
  induction bodies.flatten generalizing d with
  | nil => exact start
  | cons e es ih => exact ih _ (keeps d e start)

/-- The tables collected from a program are consistent. -/
theorem ofBodies_consistent (collected : ofBodies bodies = .ok d) : d.Consistent :=
  ofBodies_kept builtin_consistent (fun _ e => enterStatement_consistent e) collected

end Bodies

section Dispatch

variable {d : Definitions} {msg : Message}

theorem mostSpecific?_mem {candidates : List MethodEntry} {m : MethodEntry}
    (chosen : d.mostSpecific? candidates = some m) : m ∈ candidates := by
  unfold mostSpecific? at chosen
  have kept : m ∈ candidates ∨ none = some m := by
    generalize (none : Option MethodEntry) = best at chosen ⊢
    induction candidates generalizing best with
    | nil => exact .inr chosen
    | cons n ms ih =>
      rcases ih _ chosen with later | here
      · exact .inl (List.mem_cons_of_mem n later)
      · cases best with
        | none =>
          cases here
          exact .inl List.mem_cons_self
        | some b =>
          dsimp only at here
          split at here
          · exact .inr here
          · cases here
            exact .inl List.mem_cons_self
  simpa using kept

theorem choose?_mem {candidates : List MethodEntry} {id : MethodId}
    (chosen : d.choose? msg candidates = some id) :
    ∃ m ∈ candidates, m.id = id ∧ d.isApplicable msg m = true := by
  simp only [choose?, Option.map_eq_some_iff] at chosen
  obtain ⟨m, best, rfl⟩ := chosen
  have member := mostSpecific?_mem best
  simp only [pool] at member
  split at member
  · exact ⟨m, (List.mem_filter.1 member).1, rfl, (List.mem_filter.1 member).2⟩
  · have applicable := (List.mem_filter.1 member).1
    exact ⟨m, (List.mem_filter.1 applicable).1, rfl, (List.mem_filter.1 applicable).2⟩

theorem Consistent.method?_id (consistent : d.Consistent) {id : MethodId} {m : MethodEntry}
    (found : d.method? id = some m) : m.id = id := consistent.numbered id.val m found

/-- The chain of superclasses leads to methods that a class owns. -/
theorem methodInChain?_owned (consistent : d.Consistent) {id : MethodId}
    (chosen : d.methodInChain? msg = some id) :
    ∃ m, d.method? id = some m ∧ m.owner.isSome ∧ d.isApplicable msg m = true := by
  simp only [methodInChain?, Option.bind_eq_some_iff] at chosen
  obtain ⟨start, -, chosen⟩ := chosen
  obtain ⟨ancestor, -, chosen⟩ := List.exists_of_findSome?_eq_some chosen
  obtain ⟨m, member, rfl, applicable⟩ := choose?_mem chosen
  simp only [methodsOf] at member
  split at member
  · rename_i c found
    obtain ⟨id, listed, entry⟩ := List.mem_filterMap.1 member
    obtain ⟨m', same, owned⟩ := consistent.owned c (List.mem_of_find?_eq_some found) id listed
    obtain rfl := Option.some.inj (entry.symm.trans same)
    refine ⟨m, ?_, by simp [owned], applicable⟩
    rwa [consistent.method?_id entry]
  · simp at member

/-- What dispatch finds, in the order in which it looks: a new object or a library function for a
class itself, a method of a class, a primitive, and a function of the top level where no receiver is
written. -/
theorem dispatch?_cases {callee : Callee} (dispatched : d.dispatch? msg = some callee) :
    (∃ c, callee = .construct c ∧ d.isClass c = true) ∨
      (∃ lib name, callee = .foreign lib name) ∨
      (∃ id, callee = .method id ∧ d.methodInChain? msg = some id) ∨
      (∃ p, callee = .primitive p ∧
        Primitive.resolve? msg.receiver msg.name msg.arguments = some p) ∨
      ∃ id, callee = .method id ∧ msg.toSelf = true ∧ d.methodInChain? msg = none ∧
        Primitive.resolve? msg.receiver msg.name msg.arguments = none ∧
        d.choose? msg d.globalMethods = some id := by
  simp only [dispatch?, Option.or_eq_some_iff, Option.map_eq_none_iff] at dispatched
  rcases dispatched with onClass | ⟨-, inChain | ⟨noClass, primitive | ⟨noPrimitive, global⟩⟩⟩
  · simp only [classMessage?] at onClass
    split at onClass
    · split at onClass
      · rename_i new
        cases onClass
        exact .inl ⟨_, rfl, (Bool.and_eq_true_iff.1 new).2⟩
      · split at onClass
        · split at onClass
          · cases onClass
            exact .inr (.inl ⟨_, _, rfl⟩)
          · cases onClass
        · cases onClass
    · cases onClass
  · obtain ⟨id, chosen, rfl⟩ := Option.map_eq_some_iff.1 inChain
    exact .inr (.inr (.inl ⟨id, rfl, chosen⟩))
  · obtain ⟨p, resolved, rfl⟩ := Option.map_eq_some_iff.1 primitive
    exact .inr (.inr (.inr (.inl ⟨p, rfl, resolved⟩)))
  · split at global
    · rename_i toSelf
      obtain ⟨id, chosen, rfl⟩ := Option.map_eq_some_iff.1 global
      exact .inr (.inr (.inr (.inr ⟨id, rfl, toSelf, noClass, noPrimitive, chosen⟩)))
    · cases global

/-- A method that dispatch finds can answer the message; one without an owner is found only where no
receiver is written. -/
theorem dispatch?_method (consistent : d.Consistent) {id : MethodId}
    (dispatched : d.dispatch? msg = some (.method id)) :
    ∃ m, d.method? id = some m ∧ d.isApplicable msg m = true ∧
      (m.owner = none → msg.toSelf = true) := by
  rcases dispatch?_cases dispatched with ⟨_, ⟨⟩, -⟩ | ⟨_, _, ⟨⟩⟩ | ⟨_, ⟨⟩, chosen⟩ | ⟨_, ⟨⟩, -⟩ |
    ⟨_, ⟨⟩, toSelf, -, -, chosen⟩
  · obtain ⟨m, found, owned, applicable⟩ := methodInChain?_owned consistent chosen
    exact ⟨m, found, applicable, fun nobody => by simp [nobody] at owned⟩
  · obtain ⟨m, member, rfl, applicable⟩ := choose?_mem chosen
    obtain ⟨id, listed, entry⟩ := List.mem_filterMap.1 member
    refine ⟨m, ?_, applicable, fun _ => toSelf⟩
    rwa [consistent.method?_id entry]

/-- Objects are made of classes only. -/
theorem dispatch?_construct {c : String} (dispatched : d.dispatch? msg = some (.construct c)) :
    d.isClass c = true := by
  rcases dispatch?_cases dispatched with ⟨_, ⟨⟩, known⟩ | ⟨_, _, ⟨⟩⟩ | ⟨_, ⟨⟩, -⟩ | ⟨_, ⟨⟩, -⟩ |
    ⟨_, ⟨⟩, -⟩
  exact known

/-- A message runs a primitive only if the receiver and the arguments have one. -/
theorem dispatch?_primitive {p : Primitive} (dispatched : d.dispatch? msg = some (.primitive p)) :
    Primitive.resolve? msg.receiver msg.name msg.arguments = some p := by
  rcases dispatch?_cases dispatched with ⟨_, ⟨⟩, -⟩ | ⟨_, _, ⟨⟩⟩ | ⟨_, ⟨⟩, -⟩ | ⟨_, ⟨⟩, resolved⟩ |
    ⟨_, ⟨⟩, -⟩
  exact resolved

/-- A method answers a message only with as many parameters as it has arguments. -/
theorem arity_of_applicable {m : MethodEntry} (applicable : d.isApplicable msg m = true) :
    m.parameters.length = msg.arguments.length := by
  simp only [isApplicable, Bool.and_eq_true, beq_iff_eq] at applicable
  exact applicable.1.2

end Dispatch

end Definitions

end TypedBlocks

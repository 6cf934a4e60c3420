import Mathlib.Data.List.Forall2
import TypedBlocks.Proofs.ArmChoices
import TypedBlocks.Proofs.BuiltTypes
import TypedBlocks.Proofs.ClassChains

/-!
# Messages with the same types

Dispatch reads a type only through its one member, if it has one, and of that member only the class. So
it cannot tell types apart that are the same, except in one place: a class type is a class itself only
where it stands without a union around it.
-/
namespace TypedBlocks

namespace Ty

variable {t u m : Ty} {ts us : List Ty}

theorem Alike.of_built (left : t.Built) (right : u.Built) (same : t == u) : t.Alike u :=
  .inr ⟨left.proper, right.proper, same⟩

section Members

theorem only?_of_single (only : t.members = [m]) : t.only? = some m := by
  cases t with
  | union ts =>
    cases only
    rfl
  | _ =>
    cases only
    rfl

theorem only?_of_several (several : ¬ ∃ m, t.members = [m]) : t.only? = none := by
  obtain ⟨ts, rfl, -⟩ := collapse_many several
  match ts with
  | [] => rfl
  | [m] => exact absurd ⟨m, rfl⟩ several
  | _ :: _ :: _ => rfl

theorem eq_of_only? (only : t.only? = some m) : t = m ∨ t = .union [m] := by
  by_cases single : ∃ m, t.members = [m]
  · obtain ⟨n, single⟩ := single
    rw [only?_of_single single, Option.some.injEq] at only
    cases t <;> simp_all [members]
  · rw [only?_of_several single] at only
    cases only

/-- The one members of types that are the same, as far as dispatch looks at them. -/
inductive AlikeOnly : Option Ty → Option Ty → Prop
  | none : AlikeOnly none none
  | simple (s : SimpleTy) : AlikeOnly (some (.simple s)) (some (.simple s))
  | object (name : String) (vs ws : List (String × Ty)) :
    AlikeOnly (some (.object name vs)) (some (.object name ws))

theorem AlikeOnly.of_same (left : t.Proper) (right : u.Proper) (same : t == u) :
    AlikeOnly t.only? u.only? := by
  obtain ⟨sizes, matched⟩ := (left.same_iff right).1 same
  -- Types that are the same have equally many members, so both have one or neither does.
  by_cases single : ∃ m, t.members = [m]
  · obtain ⟨m, here⟩ := single
    obtain ⟨n, there⟩ := List.length_eq_one_iff.1 (by simpa [here] using sizes.symm)
    have flat : m.IsMember := left.members_flat m (by simp [here])
    have flat' : n.IsMember := right.members_flat n (by simp [there])
    have same' : m == n := by simpa [here, there] using matched
    rw [only?_of_single here, only?_of_single there]
    cases m with
    | simple s =>
      cases (simple_same_iff flat').1 same'
      exact .simple s
    | object name vs =>
      obtain ⟨ws, rfl, -⟩ := (object_same_iff flat').1 same'
      exact .object name vs ws
    | union ts => cases flat
  · have several : ¬ ∃ m, u.members = [m] := by
      rintro ⟨n, there⟩
      exact single (List.length_eq_one_iff.1 (by simpa [there] using sizes))
    rw [only?_of_several single, only?_of_several several]
    exact .none

theorem Alike.only? (alike : t.Alike u) : t = u ∨ AlikeOnly t.only? u.only? :=
  alike.imp_right fun ⟨left, right, same⟩ => .of_same left right same

theorem Alike.simple {s : SimpleTy} (alike : (Ty.simple s).Alike u) :
    u = .simple s ∨ u = .union [.simple s] := by
  obtain rfl | seen := alike.only?
  · exact .inl rfl
  · have bare : (Ty.simple s).only? = some (.simple s) := rfl
    rw [bare] at seen
    generalize only : u.only? = b at seen
    cases seen
    exact eq_of_only? only

theorem Alike.className? (alike : t.Alike u) : t.className? = u.className? := by
  obtain rfl | seen := alike.only?
  · rfl
  · unfold Ty.className?
    generalize t.only? = a, u.only? = b at seen
    cases seen <;> rfl

theorem Alike.isNil (alike : t.Alike u) : t.isNil = u.isNil := by
  obtain rfl | seen := alike.only?
  · rfl
  · unfold Ty.isNil
    generalize t.only? = a, u.only? = b at seen
    cases seen <;> rfl

theorem Alike.members_length (alike : t.Alike u) : t.members.length = u.members.length := by
  obtain rfl | ⟨left, right, same⟩ := alike
  · rfl
  · exact ((left.same_iff right).1 same).1

theorem Alike.members_matched (alike : t.Alike u) :
    ∀ m ∈ t.members, ∃ n ∈ u.members, m.Alike n := by
  obtain rfl | ⟨left, right, same⟩ := alike
  · exact fun m member => ⟨m, member, .inl rfl⟩
  · intro m member
    obtain ⟨n, member', same'⟩ := ((left.same_iff right).1 same).2 m member
    exact ⟨n, member', .inr ⟨left.members_proper m member, right.members_proper n member', same'⟩⟩

end Members

theorem alikes_symm (alike : List.Forall₂ Alike ts us) : List.Forall₂ Alike us ts :=
  (alike.imp fun _ _ => alike_equivalence.symm).flip

/-- What cannot tell two such types apart takes the same values along two such lists. -/
theorem map_eq_of_alike {β : Type} {f : Ty → β} (blind : ∀ {t u : Ty}, t.Alike u → f t = f u)
    (alike : List.Forall₂ Alike ts us) : ts.map f = us.map f := by
  induction alike with
  | nil => rfl
  | cons same _ ih => rw [List.map_cons, List.map_cons, blind same, ih]

end Ty

section Arms

variable {ts us : List Ty} {tss uss : List (List Ty)}

/-- Both expansions have failed with one count, or every arm of each is matched by one of the other. -/
def ArmsAlike : Except Nat (List (List Ty)) → Except Nat (List (List Ty)) → Prop
  | .error n, .error n' => n = n'
  | .ok arms, .ok arms' =>
    (∀ c ∈ arms, ∃ c' ∈ arms', List.Forall₂ Ty.Alike c c') ∧
      ∀ c' ∈ arms', ∃ c ∈ arms, List.Forall₂ Ty.Alike c c'
  | .error _, .ok _ => False
  | .ok _, .error _ => False

theorem countArms_alike (alike : List.Forall₂ Ty.Alike ts us) : countArms ts = countArms us := by
  have sizes := Ty.map_eq_of_alike Ty.Alike.members_length alike
  rw [countArms_eq, countArms_eq, choiceCount, choiceCount, sizes]

theorem choices_alike (alike : List.Forall₂ Ty.Alike ts us) :
    ∀ c ∈ choices (ts.map Ty.members), ∃ c' ∈ choices (us.map Ty.members),
      List.Forall₂ Ty.Alike c c' := by
  induction alike with
  | nil =>
    intro c member
    cases List.mem_singleton.1 member
    exact ⟨[], List.mem_singleton.2 rfl, .nil⟩
  | cons same _ ih =>
    intro c member
    simp only [List.map_cons, choices, List.mem_flatMap, List.mem_map] at member ⊢
    obtain ⟨m, first, others, member, rfl⟩ := member
    obtain ⟨n, first', like⟩ := same.members_matched m first
    obtain ⟨others', member', likes⟩ := ih others member
    exact ⟨n :: others', ⟨n, first', others', member', rfl⟩, .cons like likes⟩

theorem armsWithin_alike (limit : Nat) (alike : List.Forall₂ Ty.Alike ts us) :
    ArmsAlike (armsWithin limit ts) (armsWithin limit us) := by
  unfold armsWithin
  rw [countArms_alike alike]
  split
  · rfl
  · refine ⟨choices_alike alike, fun c' member => ?_⟩
    obtain ⟨c, member', likes⟩ := choices_alike (Ty.alikes_symm alike) c' member
    exact ⟨c, member', Ty.alikes_symm likes⟩

end Arms

theorem OperandKind.admits_alike (k : OperandKind) {t u : Ty} (alike : t.Alike u) :
    k.admits t = k.admits u := by
  cases k <;> simp [OperandKind.admits, alike.className?, alike.isNil]

namespace Primitive

variable {r r' : Ty} {as as' : List Ty}

theorem admitsAll_alike (ks : List OperandKind) (arguments : List.Forall₂ Ty.Alike as as') :
    admitsAll ks as = admitsAll ks as' := by
  induction arguments generalizing ks with
  | nil => rfl
  | cons same _ ih =>
    cases ks with
    | nil => rfl
    | cons k ks => rw [admitsAll, admitsAll, k.admits_alike same, ih]

theorem resolve?_alike (name : String) (receiver : r.Alike r')
    (arguments : List.Forall₂ Ty.Alike as as') : resolve? r name as = resolve? r' name as' := by
  simp only [resolve?, Signature.admits, OperandKind.admits_alike _ receiver,
    admitsAll_alike _ arguments]

theorem resultTy_alike (p : Primitive) (receiver : r.Alike r')
    (arguments : List.Forall₂ Ty.Alike as as') : p.resultTy r as = p.resultTy r' as' := by
  have names : (r :: as).map Ty.className? = (r' :: as').map Ty.className? :=
    Ty.map_eq_of_alike Ty.Alike.className? (.cons receiver arguments)
  have float : ((r :: as).any fun t => t.className? == some "Float") =
      (r' :: as').any fun t => t.className? == some "Float" := by
    simpa [List.any_map, Function.comp_def] using congrArg (·.any (· == some "Float")) names
  unfold resultTy
  rw [float]

end Primitive

/-- The messages differ only in types, and these are the same. -/
structure Message.Alike (msg msg' : Message) : Prop where
  receiver : msg.receiver.Alike msg'.receiver
  arguments : List.Forall₂ Ty.Alike msg.arguments msg'.arguments
  name : msg.name = msg'.name
  hasBlock : msg.hasBlock = msg'.hasBlock
  toSelf : msg.toSelf = msg'.toSelf

theorem Message.Alike.symm {msg msg' : Message} (alike : msg.Alike msg') : msg'.Alike msg where
  receiver := Ty.alike_equivalence.symm alike.receiver
  arguments := Ty.alikes_symm alike.arguments
  name := alike.name.symm
  hasBlock := alike.hasBlock.symm
  toSelf := alike.toSelf.symm

namespace Definitions

variable {d : Definitions} {msg msg' : Message} {callee : Callee}

theorem acceptsArgument_alike (p : Parameter) {t u : Ty} (alike : t.Alike u) :
    d.acceptsArgument p t = d.acceptsArgument p u := by
  rw [acceptsArgument, acceptsArgument, alike.className?]

theorem accepts_alike (m : MethodEntry) {as as' : List Ty} (arguments : List.Forall₂ Ty.Alike as as') :
    d.accepts m as = d.accepts m as' := by
  unfold accepts
  generalize m.parameters = ps
  induction arguments generalizing ps with
  | nil => rfl
  | cons same _ ih =>
    cases ps with
    | nil => rfl
    | cons p ps =>
      simp only [List.zip_cons_cons, List.all_cons, acceptsArgument_alike p same, ih]

theorem choose?_alike (alike : msg.Alike msg') (candidates : List MethodEntry) :
    d.choose? msg candidates = d.choose? msg' candidates := by
  have applicable : d.isApplicable msg = d.isApplicable msg' := by
    funext m
    rw [isApplicable, isApplicable, alike.name, alike.arguments.length_eq,
      accepts_alike m alike.arguments]
  rw [choose?, choose?, pool, pool, applicable, alike.hasBlock]

theorem methodInChain?_alike (alike : msg.Alike msg') : d.methodInChain? msg = d.methodInChain? msg' := by
  unfold methodInChain?
  simp only [alike.receiver.className?, choose?_alike alike]

/-- What a message runs if no class answers it itself. -/
def elsewhere? (d : Definitions) (msg : Message) : Option Callee :=
  ((d.methodInChain? msg).map Callee.method).or <|
    ((Primitive.resolve? msg.receiver msg.name msg.arguments).map Callee.primitive).or <|
      if msg.toSelf then (d.choose? msg d.globalMethods).map Callee.method else none

theorem dispatch?_eq (msg : Message) : d.dispatch? msg = (d.classMessage? msg).or (d.elsewhere? msg) := rfl

theorem elsewhere?_alike (alike : msg.Alike msg') : d.elsewhere? msg = d.elsewhere? msg' := by
  rw [elsewhere?, elsewhere?, methodInChain?_alike alike, choose?_alike alike, alike.toSelf, alike.name,
    Primitive.resolve?_alike _ alike.receiver alike.arguments]

theorem elsewhere?_eq_some (found : d.elsewhere? msg = some callee) :
    (∃ id, callee = .method id) ∨ ∃ p, callee = .primitive p := by
  simp only [elsewhere?, Option.or_eq_some_iff, Option.map_eq_some_iff] at found
  obtain ⟨id, -, rfl⟩ | ⟨-, ⟨p, -, rfl⟩ | ⟨-, found⟩⟩ := found
  · exact .inl ⟨id, rfl⟩
  · exact .inr ⟨p, rfl⟩
  · split at found
    · obtain ⟨id, -, rfl⟩ := Option.map_eq_some_iff.1 found
      exact .inl ⟨id, rfl⟩
    · cases found

theorem classMessage?_eq_some (found : d.classMessage? msg = some callee) : ∃ c,
    msg.receiver = .classOf c ∧ (callee = .construct c ∨ ∃ lib name, callee = .foreign lib name) := by
  unfold classMessage? at found
  split at found
  · rename_i c receiver
    refine ⟨c, receiver, ?_⟩
    grind
  · cases found

/-- The first message is one to a class, which answers it, and in the second one the class stands in a
union of its own. -/
def Wraps (d : Definitions) (msg msg' : Message) : Prop :=
  ∃ c, msg.receiver = .classOf c ∧ msg'.receiver = .union [.classOf c] ∧ d.classMessage? msg ≠ none

theorem Wraps.classMessage?_none (wraps : d.Wraps msg msg') : d.classMessage? msg' = none := by
  obtain ⟨c, -, wrapped, -⟩ := wraps
  rw [classMessage?, wrapped]

theorem classMessage?_alike (alike : msg.Alike msg') (plain : ¬ d.Wraps msg msg')
    (found : d.classMessage? msg = some callee) : d.classMessage? msg' = some callee := by
  obtain ⟨c, bare, -⟩ := classMessage?_eq_some found
  have same := alike.receiver
  rw [bare] at same
  obtain bare' | wrapped := same.simple
  · rw [← found, classMessage?, classMessage?, bare, bare', alike.name, alike.arguments.length_eq]
    rfl
  · exact absurd ⟨c, bare, wrapped, by simp [found]⟩ plain

/-- A class itself runs nothing that is found elsewhere. -/
theorem Wraps.dispatch?_ne (wraps : d.Wraps msg msg') : d.dispatch? msg ≠ d.dispatch? msg' := by
  obtain ⟨callee, found⟩ := Option.ne_none_iff_exists'.1 wraps.choose_spec.2.2
  rw [dispatch?_eq, dispatch?_eq, wraps.classMessage?_none, found, Option.some_or, Option.none_or]
  intro same
  obtain ⟨c, -, own⟩ := classMessage?_eq_some found
  have plain := elsewhere?_eq_some same.symm
  grind

/-- Dispatch runs the same for messages whose types are the same unless one of them is to a class that
answers it, and in the other one the class stands in a union of its own. The primitives and their results
are always the same, and so are the arms of the arguments. -/
theorem dispatch?_alike (alike : msg.Alike msg') :
    (d.dispatch? msg = d.dispatch? msg' ↔ ¬ d.Wraps msg msg' ∧ ¬ d.Wraps msg' msg) ∧
    Primitive.resolve? msg.receiver msg.name msg.arguments =
      Primitive.resolve? msg'.receiver msg'.name msg'.arguments ∧
    (∀ p : Primitive, p.resultTy msg.receiver msg.arguments = p.resultTy msg'.receiver msg'.arguments) ∧
    ∀ limit, ArmsAlike (armsWithin limit msg.arguments) (armsWithin limit msg'.arguments) := by
  refine ⟨⟨fun same => ?_, fun ⟨plain, plain'⟩ => ?_⟩, ?_, fun p => ?_, fun limit => ?_⟩
  · exact ⟨fun wraps => wraps.dispatch?_ne same, fun wraps => wraps.dispatch?_ne same.symm⟩
  · have own : d.classMessage? msg = d.classMessage? msg' := Option.ext fun callee =>
      ⟨classMessage?_alike alike plain, classMessage?_alike alike.symm plain'⟩
    rw [dispatch?_eq, dispatch?_eq, own, elsewhere?_alike alike]
  · rw [alike.name]
    exact Primitive.resolve?_alike _ alike.receiver alike.arguments
  · exact p.resultTy_alike alike.receiver alike.arguments
  · exact armsWithin_alike limit alike.arguments

/-- A class is asked for an object, with an object and a union as arguments. -/
def bareMessage : Message :=
  ⟨.classOf "Foo", "new",
    [((Ty.instanceOf "Foo").withVar "@a" .int).withVar "@b" .nil, .unionOf [.int, .nil]], false, false⟩

/-- The same in a union, and with variables and members in another order. -/
def wrappedMessage : Message :=
  ⟨.unionOf [.classOf "Foo"], "new",
    [((Ty.instanceOf "Foo").withVar "@b" .nil).withVar "@a" .int, .unionOf [.nil, .int]], false, false⟩

theorem bareMessage_alike : bareMessage.Alike wrappedMessage where
  receiver := .of_built (.simple _) (.unionOf (List.forall_mem_singleton.2 (.simple _))) (by decide +kernel)
  arguments := by
    have fields (name name' : String) {t t' : Ty} (built : t.Built) (built' : t'.Built) :
        (((Ty.instanceOf "Foo").withVar name t).withVar name' t').Built :=
      .withVar name' (.withVar name (.instanceOf "Foo") built) built'
    have either {t t' : Ty} (built : t.Built) (built' : t'.Built) : (Ty.unionOf [t, t']).Built :=
      .unionOf (by simp [built, built'])
    refine .cons (.of_built (fields _ _ ?_ ?_) (fields _ _ ?_ ?_) (by decide +kernel)) <|
      .cons (.of_built (either ?_ ?_) (either ?_ ?_) (by decide +kernel)) .nil <;> exact .simple _
  name := rfl
  hasBlock := rfl
  toSelf := rfl

theorem wrappedClass_told_apart : ∃ m next d,
    Module.read ⟨0⟩ "class Foo\nend\n" = .ok (m, next) ∧ ofBodies [m.body] = .ok d ∧
    bareMessage.Alike wrappedMessage ∧ d.dispatch? bareMessage = some (.construct "Foo") ∧
    d.dispatch? bareMessage ≠ d.dispatch? wrappedMessage ∧
    Primitive.resolve? bareMessage.receiver bareMessage.name bareMessage.arguments =
      Primitive.resolve? wrappedMessage.receiver wrappedMessage.name wrappedMessage.arguments ∧
    (∀ p : Primitive, p.resultTy bareMessage.receiver bareMessage.arguments =
      p.resultTy wrappedMessage.receiver wrappedMessage.arguments) ∧
    ∀ limit, ArmsAlike (armsWithin limit bareMessage.arguments)
      (armsWithin limit wrappedMessage.arguments) := by
  obtain ⟨m, next, d, read, collected, holds⟩ := exists_collected "class Foo\nend\n"
    (fun d => d.classMessage? bareMessage == some (.construct "Foo")) (by decide +kernel)
  have answered : d.classMessage? bareMessage = some (.construct "Foo") := by simpa using holds
  obtain ⟨same, rest⟩ := dispatch?_alike (d := d) bareMessage_alike
  have wraps : d.Wraps bareMessage wrappedMessage := ⟨"Foo", rfl, by rfl, by simp [answered]⟩
  refine ⟨m, next, d, read, collected, bareMessage_alike, ?_, fun equal => (same.1 equal).1 wraps, rest⟩
  rw [dispatch?_eq, answered, Option.some_or]

end Definitions

end TypedBlocks

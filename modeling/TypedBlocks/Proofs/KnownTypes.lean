import TypedBlocks.Proofs.Completions
import TypedBlocks.Proofs.TableGrowth

/-!
# What inferred types are made of

A vocabulary lists what a program is written with: its expressions, classes, names of variables, and
the numbers of its calls and blocks. A type is known if its classes and the variables of its objects
come from the vocabulary. What objects bind is bare: it mentions objects by their class alone, so
types do not nest any deeper. All operations of inference on types lead from known types to known
types.
-/
namespace TypedBlocks

/-- What a program is written with. -/
structure Vocabulary where
  exprs : Expr → Prop
  classes : String → Prop
  names : String → Prop
  nodes : NodeId → Prop

/-- Everything is allowed. -/
def Vocabulary.all : Vocabulary := ⟨fun _ => True, fun _ => True, fun _ => True, fun _ => True⟩

namespace Inference

section Entries

variable {α β : Type} [BEq α] {K : α → Prop} {T : β → Prop} {es : List (α × β)} {key : α}

/-- The keys and values of a table have properties, and no key is entered twice. -/
structure Entries (K : α → Prop) (T : β → Prop) (es : List (α × β)) : Prop where
  each : ∀ e ∈ es, K e.1 ∧ T e.2
  apart : es.Pairwise fun e f => ¬ (e.1 == f.1) = true

theorem Entries.nil : Entries K T [] := ⟨nofun, List.Pairwise.nil⟩

theorem Entries.nodup [LawfulBEq α] (entries : Entries K T es) : (es.map (·.1)).Nodup :=
  List.pairwise_map.2 (entries.apart.imp fun apart same => apart (beq_iff_eq.2 same))

theorem Entries.lookup (entries : Entries K T es) {b : β} (found : es.lookup key = some b) :
    T b := lookup_forall (fun e member => (entries.each e member).2) found

theorem Entries.updateAt (entries : Entries K T es) {new : β} {change : β → β} (name : K key)
    (value : T new) (step : ∀ b, T b → T (change b)) :
    Entries K T (updateAt key new change es) where
  each f member := by
    rcases updateAt_mem f member with rfl | old | ⟨e, there, rfl⟩
    · exact ⟨name, value⟩
    · exact entries.each f old
    · exact ⟨(entries.each e there).1, step _ (entries.each e there).2⟩
  apart := updateAt_apart entries.apart

end Entries

end Inference

open Inference (Entries)

def SimpleTy.Known (V : Vocabulary) : SimpleTy → Prop
  | .classOf c => V.classes c
  | _ => True

namespace Ty

/-- The type is reduced, and all its members are of one sort. -/
structure Over (P : Ty → Prop) (t : Ty) : Prop where
  reduced : t.Reduced
  members : ∀ m ∈ t.members, P m

/-- A simple type, or an object of a class and nothing about its variables. -/
def BareMember (V : Vocabulary) (m : Ty) : Prop :=
  (∃ s : SimpleTy, s.Known V ∧ m = .simple s) ∨ ∃ c, V.classes c ∧ m = .instanceOf c

def Bare (V : Vocabulary) : Ty → Prop := Over (BareMember V)

/-- Variables of an object: each is bound once, to a bare type. -/
def VarsKnown (V : Vocabulary) : List (String × Ty) → Prop := Entries V.names (Bare V)

/-- A simple type, or an object of a class with what its variables hold. -/
def KnownMember (V : Vocabulary) (m : Ty) : Prop :=
  (∃ s : SimpleTy, s.Known V ∧ m = .simple s) ∨
    ∃ c vs, V.classes c ∧ VarsKnown V vs ∧ m = .object c vs

def Known (V : Vocabulary) : Ty → Prop := Over (KnownMember V)

variable {V : Vocabulary} {t u : Ty} {ts : List Ty} {P Q : Ty → Prop}

section Members

theorem IsMember.reduced (member : t.IsMember) : t.Reduced where
  some := by simp [member.members]
  different := member.members ▸ List.pairwise_singleton _ _
  collapsed := member.collapse

/-- The types of one sort are proper and no unions. -/
def Flat (P : Ty → Prop) : Prop := ∀ m, P m → m.IsMember ∧ m.Proper

theorem Over.proper (flat : Flat P) (each : t.Over P) : t.Proper := by
  cases t with
  | simple s => exact .simple s
  | object c vs => exact (flat _ (each.members _ List.mem_cons_self)).2
  | union ts =>
    exact .union ts (fun m member => (flat m (each.members m member)).1)
      (fun m member => (flat m (each.members m member)).2) each.reduced.different

theorem Over.single (flat : Flat P) {m : Ty} (sort : P m) : m.Over P where
  reduced := (flat m sort).1.reduced
  members n member := by
    rw [(flat m sort).1.members, List.mem_singleton] at member
    exact member ▸ sort

theorem Over.join (flat : Flat P) (left : t.Over P) (right : u.Over P) : (t.join u).Over P where
  reduced := (left.reduced.prefix_join u).2
  members m member := by
    rw [join_members (left.proper flat) (right.proper flat)] at member
    obtain ⟨w, among, inside⟩ := mem_distinctMembers member
    rw [List.mem_cons, List.mem_singleton] at among
    rcases among with rfl | rfl
    · exact left.members m inside
    · exact right.members m inside

theorem Proper.collapse_collapse (proper : t.Proper) : t.collapse.collapse = t.collapse := by
  by_cases single : ∃ m, t.members = [m]
  · obtain ⟨m, only⟩ := single
    rw [collapse_eq only, (proper.members_flat m (by simp [only])).collapse]
  · obtain ⟨-, -, whole⟩ := collapse_many single
    rw [whole, whole]

theorem Over.merge? (flat : Flat P) (each : ∀ t ∈ ts, t.Over P) (merged : Ty.merge? ts = some u) :
    u.Over P := by
  have proper : ∀ t ∈ ts, t.Proper := fun t member => (each t member).proper flat
  have members := merge?_members proper merged
  refine ⟨⟨fun empty => ?_, ?_, ?_⟩, fun m member => ?_⟩
  · rw [Ty.merge?, ← members, empty] at merged
    cases merged
  · rw [members]
    exact foldl_insertNew_different List.Pairwise.nil
  · rw [Ty.merge?] at merged
    split at merged
    · cases merged
    · cases merged
      exact (unionOf_proper proper).collapse_collapse
  · rw [members] at member
    obtain ⟨w, among, inside⟩ := mem_distinctMembers member
    exact (each w among).members m inside

theorem Over.merge?_isSome (flat : Flat P) (each : ∀ t ∈ ts, t.Over P) (some : ts ≠ []) :
    ∃ u, Ty.merge? ts = .some u := by
  obtain ⟨t, rest, rfl⟩ := List.exists_cons_of_ne_nil some
  obtain ⟨m, more, whole⟩ :=
    List.exists_cons_of_ne_nil (each t List.mem_cons_self).reduced.some
  obtain ⟨d, there, -⟩ := distinctMembers_covers (fun t member => (each t member).proper flat) t
    List.mem_cons_self m (by simp [whole])
  refine ⟨_, if_neg ?_⟩
  simp only [List.isEmpty_iff]
  exact List.ne_nil_of_mem there

/-- Members are replaced one by one, and the results joined again. -/
theorem Over.mapMembers (flat : Flat Q) {f : Ty → Ty} (maps : ∀ m, P m → (f m).Over Q)
    (each : t.Over P) : ((Ty.merge? (t.members.map f)).getD t).Over Q := by
  have mapped : ∀ u ∈ t.members.map f, u.Over Q :=
    List.forall_mem_map.2 fun m member => maps m (each.members m member)
  obtain ⟨u, merged⟩ := Over.merge?_isSome flat mapped (by simpa using each.reduced.some)
  rw [merged]
  exact .merge? flat mapped merged

end Members

theorem bareMember_flat : Flat (BareMember V) := by
  rintro m (⟨s, -, rfl⟩ | ⟨c, -, rfl⟩)
  · exact ⟨trivial, .simple s⟩
  · exact ⟨trivial, .object c [] List.nodup_nil nofun⟩

theorem knownMember_flat : Flat (KnownMember V) := by
  rintro m (⟨s, -, rfl⟩ | ⟨c, vs, -, vars, rfl⟩)
  · exact ⟨trivial, .simple s⟩
  · exact ⟨trivial, .object c vs (Entries.nodup vars) fun v member =>
      (vars.each v member).2.proper bareMember_flat⟩

namespace Known

theorem proper (known : t.Known V) : t.Proper := Over.proper knownMember_flat known

theorem join (left : t.Known V) (right : u.Known V) : (t.join u).Known V :=
  Over.join knownMember_flat left right

theorem simple {s : SimpleTy} (known : s.Known V) : (Ty.simple s).Known V :=
  .single knownMember_flat (.inl ⟨s, known, rfl⟩)

theorem nil : Ty.nil.Known V := .simple trivial

theorem bool : Ty.bool.Known V := .simple trivial

theorem object {c : String} {vs : List (String × Ty)} (name : V.classes c)
    (vars : VarsKnown V vs) : (Ty.object c vs).Known V :=
  .single knownMember_flat (.inr ⟨c, vs, name, vars, rfl⟩)

theorem instanceOf {c : String} (name : V.classes c) : (Ty.instanceOf c).Known V :=
  object name Entries.nil

/-- A member of a known type alone. -/
theorem member (known : t.Known V) {m : Ty} (member : m ∈ t.members) : m.Known V :=
  .single knownMember_flat (known.members m member)

/-- The class of a type that stands for objects of one class. -/
theorem only? {c : String} {vs : List (String × Ty)} (known : t.Known V)
    (only : t.only? = some (.object c vs)) : V.classes c := by
  have inside : Ty.object c vs ∈ t.members := by
    match t with
    | .simple _ => cases only
    | .object _ _ => cases only; exact List.mem_cons_self
    | .union [_] => cases only; exact List.mem_cons_self
    | .union [] => cases only
    | .union (_ :: _ :: _) => cases only
  rcases known.members _ inside with ⟨s, -, same⟩ | ⟨c', vs', name, -, same⟩
  · cases same
  · cases same
    exact name

end Known

theorem Bare.proper (bare : t.Bare V) : t.Proper := Over.proper bareMember_flat bare

theorem Bare.join (left : t.Bare V) (right : u.Bare V) : (t.join u).Bare V :=
  Over.join bareMember_flat left right

theorem Bare.known (bare : t.Bare V) : t.Known V where
  reduced := bare.reduced
  members m member := by
    rcases bare.members m member with ⟨s, simple, rfl⟩ | ⟨c, className, rfl⟩
    · exact .inl ⟨s, simple, rfl⟩
    · exact .inr ⟨c, [], className, Entries.nil, rfl⟩

/-- What a type says about the variables of objects is dropped. -/
theorem Known.bare (known : t.Known V) : (Inference.bare t).Bare V := by
  refine Over.mapMembers bareMember_flat (fun m member => ?_) known
  rcases member with ⟨s, simple, rfl⟩ | ⟨c, vs, name, -, rfl⟩
  · exact .single bareMember_flat (.inl ⟨s, simple, rfl⟩)
  · exact .single bareMember_flat (.inr ⟨c, name, rfl⟩)

section Variables

variable {name : String} {vs : List (String × Ty)}

theorem VarsKnown.extendVarsOf (vars : VarsKnown V vs) (new : V.names name) (bare : t.Bare V) :
    VarsKnown V (Inference.Tables.extendVarsOf name t vs) := by
  have bound {u : Ty} (bare : u.Bare V) : VarsKnown V (bindVar name u vs) :=
    Inference.bindVar_eq name u ▸ Entries.updateAt vars new bare fun _ _ => bare
  rw [Inference.Tables.extendVarsOf]
  cases found : vs.lookup name with
  | none => exact bound bare
  | some u =>
    dsimp only
    split
    · exact vars
    · exact bound ((Entries.lookup vars found).join bare)

end Variables

end Ty

namespace Completions

/-- All types that are carried along have the property. -/
structure All (P : Ty → Prop) (c : Completions) : Prop where
  normal : ∀ t ∈ c.normal, P t
  returns : ∀ r ∈ c.returns, P r.2
  breaks : ∀ b ∈ c.breaks, P b.2

variable {P : Ty → Prop} {c d : Completions} {t : Ty}

theorem never_all : never.All P := ⟨nofun, nofun, nofun⟩

theorem ofNormal_all (here : P t) : (ofNormal t).All P :=
  ⟨fun _ same => Option.some.inj same ▸ here, nofun, nofun⟩

theorem All.dropNormal (all : c.All P) : c.dropNormal.All P := ⟨nofun, all.returns, all.breaks⟩

theorem removeAt_subset {α : Type} [BEq α] {key : α} {entries : List (α × Ty)} :
    ∀ e ∈ removeAt key entries, e ∈ entries := by
  induction entries with
  | nil => exact fun e member => member
  | cons e entries ih =>
    rw [removeAt]
    split
    · exact fun e member => List.mem_cons_of_mem _ member
    · intro e member
      rcases List.mem_cons.1 member with rfl | later
      · exact List.mem_cons_self
      · exact List.mem_cons_of_mem _ (ih e later)

theorem All.dropReturn (all : c.All P) (frame : FrameId) : (c.dropReturn frame).All P :=
  c.dropReturn_eq frame ▸ ⟨all.normal, fun r member => all.returns r (removeAt_subset r member), all.breaks⟩

theorem All.dropBreak (all : c.All P) (target : BreakTarget) : (c.dropBreak target).All P :=
  c.dropBreak_eq target ▸ ⟨all.normal, all.returns, fun b member => all.breaks b (removeAt_subset b member)⟩

theorem All.returnTy? (all : c.All P) (frame : FrameId) : ∀ t ∈ c.returnTy? frame, P t :=
  fun _ found => Inference.lookup_forall all.returns found

theorem All.breakTy? (all : c.All P) (target : BreakTarget) : ∀ t ∈ c.breakTy? target, P t :=
  fun _ found => Inference.lookup_forall all.breaks found

variable (closed : ∀ t u, P t → P u → P (t.join u))

include closed

theorem extendAt_all {α : Type} [BEq α] {key : α} {entries : List (α × Ty)}
    (each : ∀ e ∈ entries, P e.2) (new : P t) : ∀ e ∈ extendAt key t entries, P e.2 := by
  intro f member
  rw [Inference.extendAt_eq] at member
  rcases Inference.updateAt_mem f member with rfl | old | ⟨e, there, rfl⟩
  · exact new
  · exact each f old
  · exact closed _ _ (each e there) new

theorem All.joinNormal (all : c.All P) {t : Option Ty} (each : ∀ u ∈ t, P u) :
    (c.joinNormal t).All P :=
  ⟨Ty.mergeOption_all closed all.normal each, all.returns, all.breaks⟩

theorem All.addReturn (all : c.All P) (frame : FrameId) (here : P t) :
    (c.add (.return frame t)).All P :=
  ⟨all.normal, extendAt_all closed all.returns here, all.breaks⟩

theorem All.addBreak (all : c.All P) (target : BreakTarget) (here : P t) :
    (c.add (.break target t)).All P :=
  ⟨all.normal, all.returns, extendAt_all closed all.breaks here⟩

theorem All.addNormal (all : c.All P) (here : P t) : (c.add (.normal t)).All P :=
  all.joinNormal closed fun _ same => Option.some.inj same ▸ here

theorem All.join (left : c.All P) (right : d.All P) : (c.join d).All P := by
  have each (xs : List Completion) {c : Completions} (all : c.All P)
      (types : ∀ x ∈ xs, ∀ c : Completions, c.All P → (c.add x).All P) :
      (xs.foldl add c).All P := by
    induction xs generalizing c with
    | nil => exact all
    | cons x xs ih =>
      exact ih (types x List.mem_cons_self c all)
        fun y member => types y (List.mem_cons_of_mem x member)
  refine each d.toList left fun x member c all => ?_
  simp only [toList, List.mem_append, List.mem_map, Option.mem_toList] at member
  rcases member with (⟨t, inside, rfl⟩ | ⟨r, inside, rfl⟩) | ⟨b, inside, rfl⟩
  · exact all.addNormal closed (right.normal t inside)
  · exact all.addReturn closed r.1 (right.returns r inside)
  · exact all.addBreak closed b.1 (right.breaks b inside)

theorem All.andThen (left : c.All P) (right : d.All P) : (c.andThen d).All P := by
  rw [Completions.andThen]
  split
  · exact left.dropNormal.join closed right
  · exact left

theorem All.throughCall (all : c.All P) (site : SiteId) (frame : FrameId) :
    (c.throughCall site frame).All P :=
  c.throughCall_eq site frame ▸ ((all.dropReturn frame).dropBreak _).joinNormal closed
    (Ty.mergeOption_all closed (all.returnTy? frame) (all.breakTy? _))

theorem All.throughLoop (all : c.All P) (id : LoopId) (terminates : Bool) (nil : P Ty.nil) :
    (c.throughLoop id terminates).All P := by
  have lifted := (all.dropNormal.dropBreak (.loop id)).joinNormal closed (all.breakTy? (.loop id))
  rw [throughLoop_eq]
  split
  · exact lifted.joinNormal closed fun _ same => Option.some.inj same ▸ nil
  · exact lifted

theorem All.methodResult (all : c.All P) (frame : FrameId) : ∀ t ∈ c.methodResult frame, P t :=
  c.methodResult_eq frame ▸ Ty.mergeOption_all closed all.normal (all.returnTy? frame)

end Completions

end TypedBlocks

import TypedBlocks.Proofs.ExitTypes
import TypedBlocks.Proofs.MergeLaws

/-!
# Laws of completions

Completions that are put together from types by their operations hold one entry for each target. Two
of them are compared by the types of their ends: the normal one, returns by frame and breaks by
target. Up to this comparison alternatives form a semilattice, sequences distribute over it, and so
do the ways in which calls, loops and methods let ends land.

The laws are proved of what ends mean. There alternatives are unions at each end, and an end that is
not reached means nothing.
-/
namespace TypedBlocks

open Inference (RunTarget)
open Ty (Domain)

/-- The type of the value that is carried along. -/
def Completion.type : Completion → Ty
  | .normal t | .return _ t | .break _ t => t

section Entries

variable {α : Type} [BEq α] [LawfulBEq α] {key : α} {es : List (α × Ty)}

theorem removeAt_eq_filter (apart : Apart es) :
    removeAt key es = es.filter fun e => e.1 != key := by
  induction es with
  | nil => rfl
  | cons e es ih =>
    obtain ⟨first, rest⟩ := List.pairwise_cons.1 apart
    rw [removeAt]
    split
    · rename_i here
      have others : es.filter (fun f => f.1 != key) = es := by
        refine List.filter_eq_self.2 fun f member => ?_
        rw [← beq_iff_eq.1 here, bne_comm]
        simpa using first f member
      rw [List.filter_cons_of_neg (by simpa using here), others]
    · rename_i other
      rw [List.filter_cons_of_pos (by simpa using other), ih rest]

theorem lookup_removeAt_self (apart : Apart es) : (removeAt key es).lookup key = none := by
  rw [removeAt_eq_filter apart, List.lookup_eq_none_iff]
  intro e member
  have other := (List.mem_filter.1 member).2
  rwa [bne_comm] at other

theorem Apart.nodup (apart : Apart es) : (es.map (·.1)).Nodup :=
  List.pairwise_map.2 (apart.imp fun differ same => differ (beq_iff_eq.2 same))

end Entries

/-- What the value of each end means; the normal end has no target. -/
def Ends (M : Domain) := Option RunTarget → Option (Finset (Ty.MemberMeaning M.Value))

namespace Ends

variable {M : Domain} (a b c : Ends M)

def never : Ends M := fun _ => none

def join : Ends M := fun k => M.union (a k) (b k)

def dropNormal : Ends M
  | none => none
  | some target => a (some target)

def andThen : Ends M := if (a none).isSome then a.dropNormal.join b else a

def throughCall (site : SiteId) (frame : FrameId) : Ends M
  | none => M.union (a none) (M.union (a (some (.frame frame))) (a (some (.break (.call site)))))
  | some target =>
    if target = .frame frame ∨ target = .break (.call site) then none else a (some target)

def throughLoop (id : LoopId) (terminates : Bool) : Ends M
  | none =>
    M.union (a (some (.break (.loop id)))) (if terminates then some (M.denote .nil) else none)
  | some target => if target = .break (.loop id) then none else a (some target)

instance : Std.Associative (join (M := M)) where
  assoc _ _ _ := funext fun _ => Std.Associative.assoc _ _ _

instance : Std.Commutative (join (M := M)) where
  comm _ _ := funext fun _ => Std.Commutative.comm _ _

instance : Std.IdempotentOp (join (M := M)) where
  idempotent _ := funext fun _ => Std.IdempotentOp.idempotent _

theorem never_join : never.join a = a := funext fun _ => Option.merge_none_left

theorem join_never : a.join never = a :=
  (Std.Commutative.comm a never).trans (never_join a)

theorem dropNormal_join : (a.join b).dropNormal = a.dropNormal.join b.dropNormal := by
  funext k
  cases k <;> rfl

variable {a b c}

theorem join_falls : ((a.join b) none).isSome = ((a none).isSome || (b none).isSome) := by
  unfold join
  cases a none <;> cases b none <;> rfl

theorem dropNormal_of_none (stops : a none = none) : a.dropNormal = a := by
  funext k
  cases k with
  | none => exact stops.symm
  | some target => rfl

theorem andThen_of_some (falls : (a none).isSome) : a.andThen b = a.dropNormal.join b :=
  if_pos falls

theorem andThen_of_none (stops : a none = none) : a.andThen b = a := by
  rw [andThen, stops]
  rfl

/-- What follows either of two alternatives follows each of them. -/
theorem join_andThen : (a.join b).andThen c = (a.andThen c).join (b.andThen c) := by
  have whole : (a.join b) none = M.union (a none) (b none) := rfl
  by_cases left : (a none).isSome
  · have falls : ((a.join b) none).isSome := by rw [join_falls, left, Bool.true_or]
    rw [andThen_of_some falls, andThen_of_some left, dropNormal_join]
    by_cases right : (b none).isSome
    · rw [andThen_of_some right]
      ac_rfl
    · rw [Option.not_isSome_iff_eq_none] at right
      rw [andThen_of_none right, dropNormal_of_none right]
      ac_rfl
  · rw [Option.not_isSome_iff_eq_none] at left
    by_cases right : (b none).isSome
    · have falls : ((a.join b) none).isSome := by rw [join_falls, right, Bool.or_true]
      rw [andThen_of_some falls, andThen_of_some right, andThen_of_none left, dropNormal_join,
        dropNormal_of_none left]
      ac_rfl
    · rw [Option.not_isSome_iff_eq_none] at right
      have stops : (a.join b) none = none := by
        rw [whole, left, right]
        rfl
      rw [andThen_of_none stops, andThen_of_none left, andThen_of_none right]

/-- Either of two alternatives follows. -/
theorem andThen_join : a.andThen (b.join c) = (a.andThen b).join (a.andThen c) := by
  by_cases falls : (a none).isSome
  · rw [andThen_of_some falls, andThen_of_some falls, andThen_of_some falls]
    ac_rfl
  · rw [Option.not_isSome_iff_eq_none] at falls
    rw [andThen_of_none falls, andThen_of_none falls, andThen_of_none falls]
    ac_rfl

theorem andThen_assoc : (a.andThen b).andThen c = a.andThen (b.andThen c) := by
  by_cases falls : (a none).isSome
  · rw [andThen_of_some falls, andThen_of_some falls, join_andThen]
    have stops : a.dropNormal none = none := rfl
    rw [andThen_of_none stops]
  · rw [Option.not_isSome_iff_eq_none] at falls
    rw [andThen_of_none falls, andThen_of_none falls, andThen_of_none falls]

theorem throughCall_join (site : SiteId) (frame : FrameId) : (a.join b).throughCall site frame =
    (a.throughCall site frame).join (b.throughCall site frame) := by
  funext k
  cases k with
  | none =>
    unfold throughCall join
    dsimp only
    ac_rfl
  | some target =>
    unfold throughCall join
    dsimp only
    split <;> rfl

theorem throughLoop_join (id : LoopId) (terminates : Bool) : (a.join b).throughLoop id terminates =
    (a.throughLoop id terminates).join (b.throughLoop id terminates) := by
  funext k
  cases k with
  | none =>
    unfold throughLoop join
    dsimp only
    ac_rfl
  | some target =>
    unfold throughLoop join
    dsimp only
    split <;> rfl

end Ends

namespace Completions

/-- The completions that can be made. -/
inductive Built : Completions → Prop
  | never : Built never
  | ofNormal {t : Ty} (type : t.Built) : Built (ofNormal t)
  | ofReturn {t : Ty} (frame : FrameId) (type : t.Built) : Built (ofReturn frame t)
  | ofBreak {t : Ty} (target : BreakTarget) (type : t.Built) : Built (ofBreak target t)
  | add {c : Completions} {x : Completion} (before : Built c) (type : x.type.Built) :
    Built (c.add x)
  | joinNormal {c : Completions} {t : Option Ty} (before : Built c) (type : ∀ u ∈ t, u.Built) :
    Built (c.joinNormal t)
  | join {c d : Completions} (left : Built c) (right : Built d) : Built (c.join d)
  | andThen {c d : Completions} (first : Built c) (second : Built d) : Built (c.andThen d)
  | dropNormal {c : Completions} (before : Built c) : Built c.dropNormal
  | takeReturn {c : Completions} (frame : FrameId) (before : Built c) : Built (c.takeReturn frame).2
  | takeBreak {c : Completions} (target : BreakTarget) (before : Built c) :
    Built (c.takeBreak target).2

variable {c d e : Completions}

theorem Built.all (built : c.Built) : c.All Ty.Built := by
  have closed : ∀ t u : Ty, t.Built → u.Built → (t.join u).Built := fun _ _ => .join
  induction built with
  | never => exact never_all
  | ofNormal type => exact ofNormal_all type
  | ofReturn frame type => exact never_all.addReturn closed frame type
  | ofBreak target type => exact never_all.addBreak closed target type
  | @add c x _ type before =>
    cases x with
    | normal t => exact before.addNormal closed type
    | «return» frame t => exact before.addReturn closed frame type
    | «break» target t => exact before.addBreak closed target type
  | joinNormal _ type before => exact before.joinNormal closed type
  | join _ _ left right => exact left.join closed right
  | andThen _ _ first second => exact first.andThen closed second
  | dropNormal _ before => exact before.dropNormal
  | takeReturn frame _ before => exact before.dropReturn frame
  | takeBreak target _ before => exact before.dropBreak target

theorem Built.keyed (built : c.Built) : c.Keyed := by
  induction built with
  | never => exact .never
  | ofNormal => exact .ofNormal _
  | ofReturn => exact ⟨List.pairwise_singleton _ _, .nil⟩
  | ofBreak => exact ⟨.nil, List.pairwise_singleton _ _⟩
  | @add c x _ _ before => exact before.add x
  | joinNormal _ _ before => exact before.joinNormal _
  | @join c d _ _ left _ => exact left.join d
  | @andThen c d _ _ first _ => exact first.andThen d
  | dropNormal _ before => exact before.dropNormal
  | takeReturn frame _ before => exact before.dropReturn frame
  | takeBreak target _ before => exact before.dropBreak target

theorem Built.throughCall (built : c.Built) (site : SiteId) (frame : FrameId) :
    (c.throughCall site frame).Built := by
  refine .joinNormal (.takeBreak _ (.takeReturn _ built)) ?_
  rw [takeReturn_eq, takeBreak_eq, dropReturn_eq]
  exact Ty.mergeOption_built (built.all.returnTy? frame) (built.all.breakTy? _)

theorem Built.throughLoop (built : c.Built) (id : LoopId) (terminates : Bool) :
    (c.throughLoop id terminates).Built := by
  have lifted : ((c.dropNormal.takeBreak (.loop id)).2.joinNormal
      (c.dropNormal.takeBreak (.loop id)).1).Built := by
    refine .joinNormal (.takeBreak _ (.dropNormal built)) ?_
    rw [takeBreak_eq]
    exact built.all.breakTy? _
  rw [Completions.throughLoop]
  split
  · exact lifted.joinNormal fun _ same => Option.some.inj same ▸ .simple _
  · exact lifted

/-- The ends have the same types. -/
structure Same (c d : Completions) : Prop where
  normal : c.normal == d.normal
  returns : ∀ frame, c.returnTy? frame == d.returnTy? frame
  breaks : ∀ target, c.breakTy? target == d.breakTy? target

/-- The type of an end; the normal end has no target. -/
def endTy? (c : Completions) : Option RunTarget → Option Ty
  | none => c.normal
  | some target => c.exitTy? target

/-- What the ends mean. -/
def means (M : Domain) (c : Completions) : Ends M := fun k => (c.endTy? k).map M.denote

section Meanings

variable {M : Domain}

theorem Built.normal_proper (built : c.Built) : ∀ t ∈ c.normal, t.Proper :=
  fun t found => (built.all.normal t found).proper

theorem Built.returnTy?_proper (built : c.Built) (frame : FrameId) :
    ∀ t ∈ c.returnTy? frame, t.Proper := fun t found => (built.all.returnTy? frame t found).proper

theorem Built.breakTy?_proper (built : c.Built) (target : BreakTarget) :
    ∀ t ∈ c.breakTy? target, t.Proper := fun t found => (built.all.breakTy? target t found).proper

theorem Built.endTy?_proper (built : c.Built) (k : Option RunTarget) :
    ∀ t ∈ c.endTy? k, t.Proper := by
  cases k with
  | none => exact built.normal_proper
  | some target =>
    cases target with
    | frame id => exact built.returnTy?_proper id
    | «break» b => exact built.breakTy?_proper b

theorem same_iff_endTy? : c.Same d ↔ ∀ k, c.endTy? k == d.endTy? k := by
  constructor
  · intro same k
    cases k with
    | none => exact same.normal
    | some target =>
      cases target with
      | frame id => exact same.returns id
      | «break» b => exact same.breaks b
  · exact fun same =>
      ⟨same none, fun id => same (some (.frame id)), fun b => same (some (.break b))⟩

theorem same_iff_means (left : c.Built) (right : d.Built) : c.Same d ↔ c.means M = d.means M := by
  rw [same_iff_endTy?]
  have each (k : Option RunTarget) := Ty.option_same_iff_denote (M := M) (left.endTy?_proper k)
    (right.endTy?_proper k)
  exact (forall_congr' each).trans funext_iff.symm

theorem means_never : never.means M = Ends.never := by
  funext k
  cases k with
  | none => rfl
  | some target => cases target <;> rfl

theorem means_dropNormal : c.dropNormal.means M = (c.means M).dropNormal := by
  funext k
  cases k with
  | none => rfl
  | some target => cases target <;> rfl

theorem means_join (left : c.Built) (right : d.Built) :
    (c.join d).means M = (c.means M).join (d.means M) := by
  funext k
  have types : (c.join d).endTy? k = Ty.mergeOption (c.endTy? k) (d.endTy? k) := by
    cases k with
    | none => exact join_normal c d
    | some target => exact exitTy?_join right.keyed
  rw [means, types]
  exact Ty.denote_mergeOption (left.endTy?_proper k) (right.endTy?_proper k)

theorem means_andThen (first : c.Built) (second : d.Built) :
    (c.andThen d).means M = (c.means M).andThen (d.means M) := by
  have falls : ((c.means M) none).isSome = c.fallsThrough := Option.isSome_map
  rw [andThen, Ends.andThen, falls]
  split
  · rw [means_join first.dropNormal second, means_dropNormal]
  · rfl

theorem throughCall_normal (site : SiteId) (frame : FrameId) : (c.throughCall site frame).normal =
    Ty.mergeOption c.normal (Ty.mergeOption (c.returnTy? frame) (c.breakTy? (.call site))) := by
  rw [throughCall_eq, dropReturn_eq, dropBreak_eq]
  rfl

/-- What ends an expanded call goes no further. -/
theorem exitTy?_throughCall_landed (keyed : c.Keyed) {site : SiteId} {frame : FrameId}
    {target : RunTarget} (lands : target = .frame frame ∨ target = .break (.call site)) :
    (c.throughCall site frame).exitTy? target = none := by
  rw [throughCall_eq, dropReturn_eq, dropBreak_eq]
  rcases lands with rfl | rfl
  · exact lookup_removeAt_self keyed.returns
  · exact lookup_removeAt_self keyed.breaks

/-- What ends a loop goes no further. -/
theorem exitTy?_throughLoop_landed (keyed : c.Keyed) {id : LoopId} {terminates : Bool} :
    (c.throughLoop id terminates).exitTy? (.break (.loop id)) = none := by
  have dropped : (c.dropNormal.dropBreak (.loop id)).exitTy? (.break (.loop id)) = none := by
    rw [dropBreak_eq]
    exact lookup_removeAt_self keyed.breaks
  rw [throughLoop_eq]
  split <;> simp only [exitTy?_joinNormal, dropped]

theorem means_throughCall (built : c.Built) (site : SiteId) (frame : FrameId) :
    (c.throughCall site frame).means M = (c.means M).throughCall site frame := by
  funext k
  cases k with
  | none =>
    have returned := built.returnTy?_proper frame
    have broke := built.breakTy?_proper (.call site)
    have normal : (c.throughCall site frame).endTy? none = _ := throughCall_normal site frame
    rw [means, normal, Ty.denote_mergeOption built.normal_proper
      (Ty.mergeOption_proper returned broke), Ty.denote_mergeOption returned broke]
    rfl
  | some target =>
    rw [Ends.throughCall, means]
    split
    · rename_i lands
      have gone : (c.throughCall site frame).endTy? (some target) = none :=
        exitTy?_throughCall_landed built.keyed lands
      rw [gone, Option.map_none]
    · rename_i passes
      have same : (c.throughCall site frame).endTy? (some target) = c.endTy? (some target) :=
        exitTy?_throughCall (by simpa using passes)
      rw [same, means]

theorem means_throughLoop (built : c.Built) (id : LoopId) (terminates : Bool) :
    (c.throughLoop id terminates).means M = (c.means M).throughLoop id terminates := by
  funext k
  cases k with
  | none =>
    have broke := built.breakTy?_proper (.loop id)
    have normal : (c.throughLoop id terminates).endTy? none = _ :=
      throughLoop_normal c id terminates
    have nil : ∀ t ∈ if terminates then some Ty.nil else none, t.Proper := by
      intro t found
      split at found
      · cases found
        exact .simple _
      · cases found
    rw [means, normal, Ty.denote_mergeOption broke nil, Ends.throughLoop]
    cases terminates <;> rfl
  | some target =>
    rw [Ends.throughLoop, means]
    split
    · rename_i lands
      have gone : (c.throughLoop id terminates).endTy? (some target) = none :=
        lands ▸ exitTy?_throughLoop_landed built.keyed
      rw [gone, Option.map_none]
    · rename_i passes
      have same : (c.throughLoop id terminates).endTy? (some target) = c.endTy? (some target) :=
        exitTy?_throughLoop (by simpa using passes)
      rw [same, means]

theorem means_ofNormal_andThen (t : Ty) :
    ((ofNormal t).means M).andThen (c.means M) = c.means M := by
  have dropped : ((ofNormal t).means M).dropNormal = Ends.never := by
    rw [← means_dropNormal, ← means_never]
    rfl
  rw [Ends.andThen_of_some (by rfl), dropped, Ends.never_join]

theorem Built.methodResult_proper (built : c.Built) (frame : FrameId) :
    ∀ t ∈ c.methodResult frame, t.Proper :=
  c.methodResult_eq frame ▸ Ty.mergeOption_proper built.normal_proper (built.returnTy?_proper frame)

theorem denote_methodResult (built : c.Built) (frame : FrameId) :
    (c.methodResult frame).map M.denote =
      M.union (c.means M none) (c.means M (some (.frame frame))) := by
  rw [methodResult_eq]
  exact Ty.denote_mergeOption built.normal_proper (built.returnTy?_proper frame)

end Meanings

/-- A method ends with what either of two alternatives gives. -/
theorem methodResult_join (left : c.Built) (right : d.Built) (frame : FrameId) :
    (c.join d).methodResult frame ==
      Ty.mergeOption (c.methodResult frame) (d.methodResult frame) := by
  obtain ⟨M, -⟩ := Domain.exists_nat
  have first := left.methodResult_proper frame
  have second := right.methodResult_proper frame
  have both := left.join right
  rw [Ty.option_same_iff_denote (M := M) (both.methodResult_proper frame)
      (Ty.mergeOption_proper first second), Ty.denote_mergeOption first second,
    denote_methodResult left, denote_methodResult right, denote_methodResult both,
    means_join left right]
  unfold Ends.join
  ac_rfl

section Laws

theorem Built.same_of_means (left : c.Built) (right : d.Built)
    (same : ∀ M, c.means M = d.means M) : c.Same d := by
  obtain ⟨M, -⟩ := Domain.exists_nat
  exact (same_iff_means left right).2 (same M)

variable (first : c.Built) (second : d.Built) (third : e.Built)

include first

/-- What is taken is what was held, and nothing but its entry goes. -/
theorem takeReturn_filter (frame : FrameId) : c.takeReturn frame =
    (c.returnTy? frame, { c with returns := c.returns.filter fun r => r.1 != frame }) := by
  rw [takeReturn_eq, dropReturn_eq, removeAt_eq_filter first.keyed.returns]

theorem takeBreak_filter (target : BreakTarget) : c.takeBreak target =
    (c.breakTy? target, { c with breaks := c.breaks.filter fun b => b.1 != target }) := by
  rw [takeBreak_eq, dropBreak_eq, removeAt_eq_filter first.keyed.breaks]

theorem join_self_same : (c.join c).Same c :=
  (first.join first).same_of_means first fun M => by
    rw [means_join first first]
    exact Std.IdempotentOp.idempotent _

theorem never_join_same : (never.join c).Same c :=
  (Built.never.join first).same_of_means first fun M => by
    rw [means_join .never first, means_never, Ends.never_join]

theorem join_never_same : (c.join never).Same c :=
  (first.join .never).same_of_means first fun M => by
    rw [means_join first .never, means_never, Ends.join_never]

theorem ofNormal_andThen_same {t : Ty} (type : t.Built) : ((ofNormal t).andThen c).Same c :=
  (Built.andThen (.ofNormal type) first).same_of_means first fun M => by
    rw [means_andThen (.ofNormal type) first, means_ofNormal_andThen]

include second

theorem join_comm_same : (c.join d).Same (d.join c) :=
  (first.join second).same_of_means (second.join first) fun M => by
    rw [means_join first second, means_join second first]
    exact Std.Commutative.comm _ _

theorem throughCall_join_same (site : SiteId) (frame : FrameId) : ((c.join d).throughCall site
    frame).Same ((c.throughCall site frame).join (d.throughCall site frame)) := by
  have left := first.throughCall site frame
  have right := second.throughCall site frame
  refine ((first.join second).throughCall site frame).same_of_means (left.join right) fun M => ?_
  rw [means_throughCall (first.join second), means_join first second, means_join left right,
    means_throughCall first, means_throughCall second, Ends.throughCall_join]

theorem throughLoop_join_same (id : LoopId) (terminates : Bool) : ((c.join d).throughLoop id
    terminates).Same ((c.throughLoop id terminates).join (d.throughLoop id terminates)) := by
  have left := first.throughLoop id terminates
  have right := second.throughLoop id terminates
  refine ((first.join second).throughLoop id terminates).same_of_means (left.join right) fun M => ?_
  rw [means_throughLoop (first.join second), means_join first second, means_join left right,
    means_throughLoop first, means_throughLoop second, Ends.throughLoop_join]

include third

theorem join_assoc_same : ((c.join d).join e).Same (c.join (d.join e)) :=
  ((first.join second).join third).same_of_means (first.join (second.join third)) fun M => by
    rw [means_join (first.join second) third, means_join first second,
      means_join first (second.join third), means_join second third]
    exact Std.Associative.assoc _ _ _

theorem andThen_assoc_same : ((c.andThen d).andThen e).Same (c.andThen (d.andThen e)) :=
  ((first.andThen second).andThen third).same_of_means (first.andThen (second.andThen third))
    fun M => by
      rw [means_andThen (first.andThen second) third, means_andThen first second,
        means_andThen first (second.andThen third), means_andThen second third, Ends.andThen_assoc]

theorem join_andThen_same : ((c.join d).andThen e).Same ((c.andThen e).join (d.andThen e)) :=
  ((first.join second).andThen third).same_of_means
    ((first.andThen third).join (second.andThen third)) fun M => by
      rw [means_andThen (first.join second) third, means_join first second,
        means_join (first.andThen third) (second.andThen third), means_andThen first third,
        means_andThen second third, Ends.join_andThen]

theorem andThen_join_same : (c.andThen (d.join e)).Same ((c.andThen d).join (c.andThen e)) :=
  (first.andThen (second.join third)).same_of_means
    ((first.andThen second).join (first.andThen third)) fun M => by
      rw [means_andThen first (second.join third), means_join second third,
        means_join (first.andThen second) (first.andThen third), means_andThen first second,
        means_andThen first third, Ends.andThen_join]

end Laws

/-- No target is entered twice, and what is taken for a target is its entry. Up to the types of
ends, alternatives are a semilattice with `never` as its unit; sequences are associative, begin with
a value as if with nothing, stop where there is no value, and distribute over alternatives on both
sides; and calls, loops and methods distribute over alternatives. -/
theorem completions_form_algebra {c d e : Completions} (first : c.Built) (second : d.Built)
    (third : e.Built) :
    ((c.returns.map (·.1)).Nodup ∧ (c.breaks.map (·.1)).Nodup) ∧
    (∀ frame, c.takeReturn frame =
      (c.returnTy? frame, { c with returns := c.returns.filter fun r => r.1 != frame })) ∧
    (∀ target, c.takeBreak target =
      (c.breakTy? target, { c with breaks := c.breaks.filter fun b => b.1 != target })) ∧
    (((c.join d).join e).Same (c.join (d.join e)) ∧ (c.join d).Same (d.join c) ∧
      (c.join c).Same c ∧ (never.join c).Same c ∧ (c.join never).Same c) ∧
    (((c.andThen d).andThen e).Same (c.andThen (d.andThen e)) ∧
      (∀ t : Ty, t.Built → ((ofNormal t).andThen c).Same c) ∧
      (c.normal = none → c.andThen d = c)) ∧
    (((c.join d).andThen e).Same ((c.andThen e).join (d.andThen e)) ∧
      (c.andThen (d.join e)).Same ((c.andThen d).join (c.andThen e))) ∧
    (∀ site frame, ((c.join d).throughCall site frame).Same
      ((c.throughCall site frame).join (d.throughCall site frame))) ∧
    (∀ id terminates, ((c.join d).throughLoop id terminates).Same
      ((c.throughLoop id terminates).join (d.throughLoop id terminates))) ∧
    ∀ frame, (c.join d).methodResult frame ==
      Ty.mergeOption (c.methodResult frame) (d.methodResult frame) :=
  ⟨⟨first.keyed.returns.nodup, first.keyed.breaks.nodup⟩, takeReturn_filter first,
    takeBreak_filter first,
    ⟨join_assoc_same first second third, join_comm_same first second, join_self_same first,
      never_join_same first, join_never_same first⟩,
    ⟨andThen_assoc_same first second third, fun _ => ofNormal_andThen_same first,
      fun stops => andThen_stopped d (by rw [fallsThrough, stops]; rfl)⟩,
    ⟨join_andThen_same first second third, andThen_join_same first second third⟩,
    throughCall_join_same first second, throughLoop_join_same first second,
    methodResult_join first second⟩

def returned : Completions := ofReturn ⟨0⟩ .int

def fallen : Completions := ofNormal .nil

def broken : Completions := ofBreak (.loop ⟨0⟩) .string

theorem returned_or_fallen_then_broken : returned.Built ∧ fallen.Built ∧ broken.Built ∧
    ((returned.join fallen).andThen broken).Same
      ((returned.andThen broken).join (fallen.andThen broken)) := by
  have first : returned.Built := .ofReturn _ (.simple _)
  have second : fallen.Built := .ofNormal (.simple _)
  have third : broken.Built := .ofBreak _ (.simple _)
  obtain ⟨-, -, -, -, -, ⟨distributes, -⟩, -⟩ := completions_form_algebra first second third
  exact ⟨first, second, third, distributes⟩

end Completions

end TypedBlocks

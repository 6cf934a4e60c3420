import TypedBlocks.Proofs.FilledSlots
import TypedBlocks.Proofs.IntegerOperators

/-!
# Methods that count

A method that counts in the language itself sets `i`, loops as long as an operator compares it with
something, runs its block for it and adds one. Where it is expanded for integers, its code is a loop that
counts: the operators are the primitive ones, whatever other types `i` is found to have, and everything
names the slots of the expansion.
-/
namespace TypedBlocks

/-- An operand in the text of a method that counts. -/
inductive Operand where
  | integer (n : Int64)
  | read (name : String)
  | self
  deriving DecidableEq

def Operand.form : Operand → Form
  | integer n => .literal (.integer n)
  | read name => .read ⟨.local, name⟩
  | self => .self

def Form.operand? : Form → Option Operand
  | .literal (.integer n) => some (.integer n)
  | .read ⟨.local, name⟩ => some (.read name)
  | .self => some .self
  | _ => none

namespace Expr

def poses (o : Operand) (e : Expr) : Bool := e.form.operand? == some o

/-- The expression sends the operator to the first operand with the second one. -/
def operates (name : String) (left right : Operand) (e : Expr) : Bool :=
  match e.form with
  | .call (some receiver) operator _ [argument] none =>
    operator == name && receiver.poses left && argument.poses right
  | _ => false

/-- The expression gives the local variable a value that is written as the test wants. -/
def sets (name : String) (accepts : Expr → Bool) (e : Expr) : Bool :=
  match e.form with
  | .assign v _ value => v == ⟨.local, name⟩ && accepts value
  | _ => false

/-- The expression loops over `i` with the operator: it yields `i` and adds one to it. -/
def countsBy (order : String) (bound : Operand) (e : Expr) : Bool :=
  match e.form with
  | .while condition [⟨_, _, .yield [given]⟩, next] =>
    condition.operates order (.read "i") bound && given.poses (.read "i") &&
      next.sets "i" (operates "+" (.read "i") (.integer 1))
  | _ => false

variable {e : Expr} {name : String} {o left right : Operand}

theorem poses_form (poses : e.poses o = true) : e.form = o.form := by
  have same : e.form.operand? = some o := by simpa [Expr.poses] using poses
  unfold Form.operand? at same
  split at same <;> cases same
  all_goals rename_i form; exact form

theorem operates_form (operates : e.operates name left right = true) :
    ∃ receiver span argument, e.form = .call (some receiver) name span [argument] none ∧
      receiver.poses left = true ∧ argument.poses right = true := by
  unfold Expr.operates at operates
  split at operates
  · rename_i receiver operator span argument form
    simp only [Bool.and_eq_true, beq_iff_eq] at operates
    exact ⟨receiver, span, argument, operates.1.1 ▸ form, operates.1.2, operates.2⟩
  · cases operates

theorem sets_form {accepts : Expr → Bool} (sets : e.sets name accepts = true) :
    ∃ span value, e.form = .assign ⟨.local, name⟩ span value ∧ accepts value = true := by
  unfold Expr.sets at sets
  split at sets
  · rename_i v span value form
    simp only [Bool.and_eq_true, beq_iff_eq] at sets
    exact ⟨span, value, sets.1 ▸ form, sets.2⟩
  · cases sets

theorem countsBy_form {order : String} {bound : Operand} (counts : e.countsBy order bound = true) :
    ∃ condition id span given next, e.form = .while condition [⟨id, span, .yield [given]⟩, next] ∧
      condition.operates order (.read "i") bound = true ∧ given.poses (.read "i") = true ∧
      next.sets "i" (operates "+" (.read "i") (.integer 1)) = true := by
  unfold Expr.countsBy at counts
  split at counts
  · rename_i condition id span given next form
    simp only [Bool.and_eq_true] at counts
    exact ⟨condition, id, span, given, next, form, counts.1.1, counts.1.2, counts.2⟩
  · cases counts

end Expr

/-- The method counts `i` from the start on, as long as the operator compares it with the bound, and gives
`self`. -/
def MethodDef.counts (m : MethodDef) (order : String) (start bound : Operand) : Bool :=
  match m.body with
  | [first, loop, last] =>
    first.sets "i" (Expr.poses start) && loop.countsBy order bound && last.poses .self
  | _ => false

theorem MethodDef.counts_body {m : MethodDef} {order : String} {start bound : Operand}
    (counts : m.counts order start bound = true) : ∃ first loop last, m.body = [first, loop, last] ∧
      first.sets "i" (Expr.poses start) = true ∧ loop.countsBy order bound = true ∧
      last.poses .self = true := by
  unfold MethodDef.counts at counts
  split at counts
  · rename_i first loop last body
    simp only [Bool.and_eq_true] at counts
    exact ⟨first, loop, last, body, counts.1.1, counts.1.2, counts.2⟩
  · cases counts

/-- The integers cover no type but themselves. -/
theorem Ty.Known.int_mem {V : Vocabulary} {t : Ty} (known : t.Known V) (below : Ty.int ≤ t) :
    Ty.int ∈ t.members := by
  obtain ⟨n, member, same⟩ := below Ty.int List.mem_cons_self
  have single : n.IsMember := (Ty.knownMember_flat _ (known.members n member)).1
  rwa [(Ty.simple_same_iff single).1 same] at member

/-- The operator compares integers in the primitive way. -/
structure Definitions.Compares (d : Definitions) (name : String) (operation : Primitive) : Prop where
  spares : d.Spares name
  resolved : Primitive.resolve? Ty.int name [Ty.int] = some operation
  result : ∀ a b : Int64,
    operation.apply (.int a) [.int b] = .ok (.bool (operation.compareInts a b))

namespace Inference

open Typed (SlotId)
open Pass

/-- The variable has the slot and can hold an integer. -/
structure PassState.Integral (s : PassState) (key : ScopeVar) (x : SlotId) : Prop where
  found : s.frame.find? key = some x
  holds : s.CanHold key Ty.int

/-- The elaborated operand can be an integer, and evaluating it gives the value and does nothing else. -/
structure Elaborated.Poses (l : Elaborated) (value : Machine → Value) : Prop where
  type : ∃ t, l.ends.normal = some t ∧ Ty.int ≤ t
  returns : ∀ (p : Typed.Program) m, p.Returns l.code m (value m) m

/-- Where the operand is written behind the state, it has the value. -/
def Posing (cx : Setting) (here : Place) (s : PassState) (o : Operand) (value : Machine → Value) :
    Prop :=
  ∀ fuel e s₁ l s₂, e.poses o = true → s.Grows s₁ → s₁.Known cx .all →
    elaborateExpr cx fuel here e s₁ = some (l, s₂) → l.Poses value

section States

variable {cx : Setting} {here : Place} {s s' : PassState} {key : ScopeVar} {x : SlotId} {t : Ty}
  {name : String}

theorem BodyContext.scopeOf_expansion {a definer : BodyContext} {block : Block} {site : SiteId}
    (origin : a.origin = .expansion block site definer) (captures : CaptureTable) (name : String) :
    a.scopeOf captures name = (a.path, false) := by
  cases a
  cases origin
  rfl

theorem Place.Known.ownVar (place : here.Known cx .all)
    (own : here.activation.scopeOf cx.captures name = (here.activation.path, false)) :
    ScopeVar.Known cx .all ⟨here.activation.path, name⟩ := by
  have known : ScopeVar.Known cx .all ⟨(here.activation.scopeOf cx.captures name).1, name⟩ :=
    place.scopeVar name
  rwa [own] at known

theorem PassState.Integral.later (integral : s.Integral key x) (grows : s.Grows s')
    (left : s.Known cx .all) (right : s'.Known cx .all) (known : key.Known cx .all) :
    s'.Integral key x :=
  ⟨FrameSlots.find?_mono grows.labels integral.found,
    integral.holds.later grows left right known known rfl⟩

theorem canHold_extended (known : s.Known cx .all) (scope : key.Known cx .all) (type : t.Known .all)
    (int : Ty.int ≤ t) : ∃ u, (s.tables.extendVar key t).var? key = some u ∧ Ty.int ≤ u := by
  obtain ⟨u, entry, covers⟩ : ∃ u, (extendAt key t s.tables.vars).lookup key = some u ∧ t ≤ u :=
    extendAt_covers key scope.beq_self
      (fun e member => (known.tables.vars.each e member).1.1.beq_comm scope)
      (fun e member => (known.tables.vars.each e member).2) type
  have wider := ((known.tables.extendVar scope trivial type).vars.lookup entry).proper
  exact ⟨u, entry, (Ty.Proper.simple _).le_trans type.proper wider int covers⟩

theorem integral_assigned (known : s.Known cx .all) (place : here.Known cx .all)
    (own : here.activation.scopeOf cx.captures name = (here.activation.path, false))
    (type : t.Known .all) (int : Ty.int ≤ t) :
    (assignLocal cx here.activation name t s).Integral ⟨here.activation.path, name⟩
      (s.frame.slotFor ⟨here.activation.path, name⟩).1 := by
  have scope := place.ownVar own
  simp only [assignLocal, own]
  exact ⟨FrameSlots.find?_lookedUp scope.beq_self _, canHold_extended known scope type int⟩

end States

/-- What follows an expression is elaborated just if that can end normally. -/
theorem elaborateParts_reached {elaborate : Elaborate} {here : Place} {ends ends' : Completions}
    {e : Expr} {es : List Expr} {codes : List Typed.Expr} {s s' : PassState}
    (growing : elaborate.Growing) (falls : ends.fallsThrough = true)
    (h : elaborateParts elaborate here ends (e :: es) s = some ((codes, ends'), s')) :
    ∃ first s₁, elaborate here e s = some (first, s₁) ∧ s₁.Grows s' ∧
      (first.ends.normal.isSome = true → ∃ rest ends₁, ends₁.fallsThrough = true ∧
        ends₁.normal = first.ends.normal ∧
        elaborateParts elaborate here ends₁ es s₁ = some ((rest, ends'), s') ∧
        codes = first.code :: rest) ∧
      (first.ends.normal = none → codes = [first.code] ∧ ends'.normal = none ∧ s' = s₁) := by
  obtain ⟨first, s₁, run, rest⟩ := elaborateParts_cons_steps h
  have normal := Completions.andThen_normal first.ends falls
  refine ⟨first, s₁, run, ?_⟩
  rcases rest with ⟨goes, rest, runRest, rfl⟩ | ⟨stops, rfl, rfl, rfl⟩
  · refine ⟨elaborateParts_grows growing runRest,
      fun _ => ⟨rest, _, goes, normal, runRest, rfl⟩, fun stops => ?_⟩
    simp [Completions.fallsThrough, normal, stops] at goes
  · rw [Completions.fallsThrough, normal] at stops
    exact ⟨.refl s', fun goes => by simp [goes] at stops, fun stops => ⟨rfl, normal.trans stops, rfl⟩⟩

section Operands

variable {cx : Setting} {here : Place} {s : PassState} {x : SlotId}

theorem elaborateExpr_form {fuel : Nat} {e : Expr} {r : Elaborated × PassState}
    (h : elaborateExpr cx fuel here e s = some r) :
    ∃ n, elaborateForm cx (elaborateExpr cx n) here e s = some r := by
  cases fuel with
  | zero => cases h
  | succ n => exact ⟨n, h⟩

theorem posing_integer (n : Int64) : Posing cx here s (.integer n) fun _ => .int n := by
  intro fuel e s₁ l s₂ poses _ _ h
  obtain ⟨n, h⟩ := elaborateExpr_form h
  simp only [elaborateForm, Expr.poses_form poses, Operand.form] at h
  obtain ⟨rfl, rfl⟩ := pure_eq_some.1 h
  exact ⟨⟨Ty.int, rfl, (Ty.Proper.simple _).le_refl⟩, fun p m => Typed.returns_literal _⟩

theorem posing_self (self : here.activation.selfType = Ty.int) :
    Posing cx here s .self (·.slot here.activation.selfSlot) := by
  intro fuel e s₁ l s₂ poses _ _ h
  obtain ⟨n, h⟩ := elaborateExpr_form h
  simp only [elaborateForm, Expr.poses_form poses, Operand.form] at h
  obtain ⟨rfl, rfl⟩ := pure_eq_some.1 h
  exact ⟨⟨Ty.int, congrArg some self, (Ty.Proper.simple _).le_refl⟩,
    fun p m => Typed.returns_slot rfl⟩

theorem posing_read {name : String} (consistent : cx.definitions.Consistent)
    (place : here.Known cx .all) (known : s.Known cx .all)
    (own : here.activation.scopeOf cx.captures name = (here.activation.path, false))
    (integral : s.Integral ⟨here.activation.path, name⟩ x) :
    Posing cx here s (.read name) (·.slot x) := by
  intro fuel e s₁ l s₂ poses grows known₁ h
  have known₂ := (elaborateExpr_known_all consistent fuel _ _ _ _ _ trivial place known₁ h).1
  have grows₂ := elaborateExpr_grows cx fuel _ _ _ _ _ h
  have scope := place.ownVar own
  have found := (integral.later grows known known₁ scope).found
  obtain ⟨t, entry, int⟩ := (integral.later (grows.trans grows₂) known known₂ scope).holds
  obtain ⟨n, h⟩ := elaborateExpr_form h
  simp only [elaborateForm, Expr.poses_form poses, Operand.form] at h
  simp only [elaborateRead, elaborateLocal_run, own, Option.some.injEq, Prod.mk.injEq] at h
  obtain ⟨rfl, rfl⟩ := h
  refine ⟨⟨t, by simp [Elaborated.ofNode, Completions.ofNormal, entry], int⟩, fun p m => ?_⟩
  rw [FrameSlots.slotFor, found]
  exact Typed.returns_slot rfl

theorem Posing.later {s' : PassState} {o : Operand} {value : Machine → Value}
    (posing : Posing cx here s o value) (grows : s.Grows s') : Posing cx here s' o value :=
  fun fuel e s₁ l s₂ poses more => posing fuel e s₁ l s₂ poses (grows.trans more)

/-- An operator of integers is the primitive one. -/
theorem elaborateExpr_operates {left right : Operand} {value value' : Machine → Value} {name : String}
    {operation : Primitive} {fuel : Nat} {e : Expr} {l : Elaborated} {s' : PassState}
    (consistent : cx.definitions.Consistent) (place : here.Known cx .all) (known : s.Known cx .all)
    (first : Posing cx here s left value) (second : Posing cx here s right value')
    (spares : cx.definitions.Spares name)
    (resolved : Primitive.resolve? Ty.int name [Ty.int] = some operation)
    (operates : e.operates name left right = true)
    (h : elaborateExpr cx fuel here e s = some (l, s')) (sound : s'.errors = []) :
    l.ends.normal.isSome = true ∧ ∃ temps, (∀ x ∈ temps, s.frame.slots.length ≤ x.val) ∧
      ∀ (p : Typed.Program) m x y v, value m = .int x → value' m = .int y →
        operation.apply (.int x) [.int y] = .ok v →
          p.Returns l.code m v (m.bindSlots temps [.int x, .int y]) := by
  obtain ⟨receiver, span, argument, form, poses, poses'⟩ := Expr.operates_form operates
  obtain ⟨n, h⟩ := elaborateExpr_form h
  simp only [elaborateForm, form] at h
  have knowing : (elaborateExpr cx n).Knowing cx .all := elaborateExpr_known_all consistent n
  have growing := elaborateExpr_grows cx n
  obtain ⟨parts, ends, s₃, run, rest⟩ := elaborateCall_steps h
  obtain ⟨l₁, s₁, run₁, -, next, -⟩ := elaborateParts_reached growing rfl run
  have grows₁ := growing _ _ _ _ _ run₁
  obtain ⟨known₁, kept₁⟩ := knowing _ _ _ _ _ trivial place known run₁
  obtain ⟨⟨t, normal₁, int₁⟩, returns₁⟩ := first _ _ _ _ _ poses (.refl s) known run₁
  obtain ⟨_, ends₁, falls₁, -, later, rfl⟩ := next (by simp [normal₁])
  obtain ⟨l₂, s₂, run₂, -, next, -⟩ := elaborateParts_reached growing falls₁ later
  have grows₂ := growing _ _ _ _ _ run₂
  obtain ⟨known₂, kept₂⟩ := knowing _ _ _ _ _ trivial place known₁ run₂
  obtain ⟨⟨u, normal₂, int₂⟩, returns₂⟩ := second _ _ _ _ _ poses' grows₁ known₁ run₂
  obtain ⟨_, ends₂, falls, -, nothing, rfl⟩ := next (by simp [normal₂])
  obtain ⟨rfl, rfl, rfl⟩ := elaborateParts_nil_steps nothing
  rcases rest with ⟨stops, -, -⟩ | ⟨-, sent, runSent, rfl⟩
  · rw [falls] at stops
    cases stops
  have types : [l₁.code, l₂.code].filterMap (·.ty) = [t, u] := by
    simp [kept₁.typed, kept₂.typed, normal₁, normal₂]
  have operands : sentOperands here (some receiver) [l₁.code, l₂.code] = [l₁.code, l₂.code] := rfl
  rw [operands, types] at runSent
  have callee : calleeFor? cx ⟨e.id, name, span, none, false⟩ Ty.int [Ty.int] =
      some (.primitive operation) := spares.dispatch? resolved false false
  have type₁ := kept₁.ends.normal t normal₁
  have type₂ := kept₂.ends.normal u normal₂
  obtain ⟨goes, temps, fresh, returns⟩ := elaborateDispatch_operates growing callee type₁.reduced
    type₂.reduced (type₁.int_mem int₁) (type₂.int_mem int₂) runSent sound
  refine ⟨?_, temps, fun x member => ?_, fun p m x y v left right result => ?_⟩
  · rwa [Completions.andThen_normal _ falls]
  · exact Nat.le_trans (grows₁.trans grows₂).slots (fresh x member)
  · exact returns.returns p m x y v (left ▸ returns₁ p m) (right ▸ returns₂ p m) result

end Operands

section Loops

open Typed (CountingLoop)

variable {cx : Setting} {fuel : Nat} {here : Place} {s s' : PassState} {l : Elaborated} {x : SlotId}
  {definer : BodyContext} {block : Block} {site : SiteId} {e : Expr}

theorem elaborateExpr_sets {name : String} {accepts : Expr → Bool}
    (origin : here.activation.origin = .expansion block site definer)
    (sets : e.sets name accepts = true)
    (h : elaborateExpr cx fuel here e s = some (l, s')) :
    ∃ n value first s₁, accepts value = true ∧ elaborateExpr cx n here value s = some (first, s₁) ∧
      s₁.Grows s' ∧ ∀ t, first.ends.normal = some t →
        s' = assignLocal cx here.activation name t s₁ ∧
        l = .ofNode (.assign (s₁.frame.slotFor ⟨here.activation.path, name⟩).1 first.code)
          first.ends := by
  obtain ⟨span, value, form, accepted⟩ := Expr.sets_form sets
  obtain ⟨n, h⟩ := elaborateExpr_form h
  simp only [elaborateForm, form] at h
  obtain ⟨first, s₁, run, rest⟩ := elaborateAssignment_steps h
  rcases rest with ⟨stops, -, rfl⟩ | ⟨u, normal, ⟨-, rfl, rfl⟩ | ⟨other, -⟩ | ⟨other, -⟩ |
    ⟨other, -⟩ | ⟨other, -⟩⟩
  · exact ⟨n, value, first, s', accepted, run, .refl s', fun t normal => by simp [stops] at normal⟩
  · refine ⟨n, value, first, s₁, accepted, run, assignLocal_grows _ _ _, fun t normal' => ?_⟩
    cases normal.symm.trans normal'
    rw [BodyContext.scopeOf_expansion origin]
    exact ⟨rfl, rfl⟩
  all_goals cases other

theorem elaborateBody_ty {elaborate : Elaborate} {body : List Expr}
    (h : elaborateBody elaborate here body s = some (l, s')) : l.code.ty = l.ends.normal := by
  rcases elaborateBody_steps h with ⟨-, rfl, -⟩ | ⟨-, parts, ends, -, rfl⟩
  · rfl
  · exact ofParts_ty parts _

/-- A block that is yielded to may end with a value just if the yield may. -/
theorem elaborateExpr_yields {given : Expr} {value : Machine → Value} (known : s.Known cx .all)
    (posing : Posing cx here s (.read "i") value) (poses : given.poses (.read "i") = true)
    (form : e.form = .yield [given]) (h : elaborateExpr cx fuel here e s = some (l, s'))
    (sound : s'.errors = []) :
    ∃ parameters locals argument body, l.code = ⟨body.ty, .yield parameters locals [argument] body⟩ ∧
      l.ends.normal = body.ty ∧ ∀ (p : Typed.Program) m, p.Returns argument m (value m) m := by
  obtain ⟨n, h⟩ := elaborateExpr_form h
  simp only [elaborateForm, form] at h
  obtain ⟨parts, ends, s₂, run, rest⟩ := elaborateYield_steps h
  obtain ⟨first, s₁, run₁, -, next, -⟩ := elaborateParts_reached (elaborateExpr_grows cx n) rfl run
  obtain ⟨⟨t, normal, -⟩, returns⟩ := posing _ _ _ _ _ poses (.refl s) known run₁
  obtain ⟨_, _, falls, -, nothing, rfl⟩ := next (by simp [normal])
  obtain ⟨rfl, rfl, rfl⟩ := elaborateParts_nil_steps nothing
  rcases rest with ⟨stops, -, -⟩ | ⟨-, ⟨block, site, definer, parameters, s₃, body, -, -, runBody,
    rfl⟩ | ⟨_, -, -, failed⟩⟩
  · rw [falls] at stops
    cases stops
  · have typed : body.code.ty = body.ends.normal := elaborateBody_ty runBody
    have normal : (ends.andThen body.ends).normal = body.code.ty := by
      rw [Completions.andThen_normal _ falls, typed]
    refine ⟨parameters, s'.frame.slotsWithin (.block block.id :: definer.path), first.code, body.code, ?_,
      normal, returns⟩
    rw [Elaborated.ofNode, normal]
  · exact (no_failure sound failed).elim

/-- A round runs the block and, where that may end with a value, adds one to the counter. -/
theorem elaborateBody_runs {id : NodeId} {span : Span} {given next : Expr}
    (consistent : cx.definitions.Consistent) (spares : cx.definitions.Spares "+")
    (place : here.Known cx .all) (known : s.Known cx .all)
    (origin : here.activation.origin = .expansion block site definer)
    (integral : s.Integral ⟨here.activation.path, "i"⟩ x) (poses : given.poses (.read "i") = true)
    (sets : next.sets "i" (Expr.operates "+" (.read "i") (.integer 1)) = true)
    (h : elaborateBody (elaborateExpr cx fuel) here [⟨id, span, .yield [given]⟩, next] s = some (l, s'))
    (sound : s'.errors = []) :
    ∃ ty parameters locals argument body addends, (∀ t ∈ addends, s.frame.slots.length ≤ t.val) ∧
      Typed.Expr.Stays ⟨ty, .yield parameters locals [argument] body⟩ l.code ∧
      ∀ (p : Typed.Program) m n v m₁, body.ty.isSome = true → m.slot x = .int n →
        m₁.slot x = .int n →
        p.Returns body ((m.clearSlots locals).bindOrClear parameters [.int n]) v m₁ →
          ∃ w, p.Returns l.code m w
            ((m₁.bindSlots addends [.int n, .int 1]).setSlot x (.int (n + 1))) := by
  have own := BodyContext.scopeOf_expansion origin cx.captures "i"
  have scope := place.ownVar own
  have posing := posing_read consistent place known own integral
  have growing := elaborateExpr_grows cx fuel
  rcases elaborateBody_steps h with ⟨empty, -⟩ | ⟨-, parts, ends, run, rfl⟩
  · cases empty
  obtain ⟨l₁, s₁, run₁, later₁, goes, stops⟩ := elaborateParts_reached growing rfl run
  have grows₁ := growing _ _ _ _ _ run₁
  have known₁ := (elaborateExpr_known_all consistent fuel _ _ _ _ _ trivial place known run₁).1
  obtain ⟨parameters, locals, argument, body, code, normal, given⟩ :=
    elaborateExpr_yields known posing poses rfl run₁ (later₁.no_errors sound)
  cases falls : body.ty with
  | none =>
    obtain ⟨rfl, -, -⟩ := stops (normal.trans falls)
    refine ⟨ends.normal, parameters, locals, argument, body, [], nofun, ?_, fun _ _ _ _ _ some => by
      simp [falls] at some⟩
    rw [code]
    exact .self _
  | some t =>
    obtain ⟨_, ends₁, falls₁, -, rest, rfl⟩ := goes (by rw [normal, falls]; rfl)
    obtain ⟨l₂, s₂, run₂, later₂, goes, -⟩ := elaborateParts_reached growing falls₁ rest
    obtain ⟨n, value, sum, s₃, operates, runSum, later₃, assigned⟩ :=
      elaborateExpr_sets origin sets run₂
    have grows₃ := grows₁.trans (elaborateExpr_grows cx n _ _ _ _ _ runSum)
    have known₃ := (elaborateExpr_known_all consistent n _ _ _ _ _ trivial place known₁ runSum).1
    obtain ⟨some, addends, fresh, returns⟩ := elaborateExpr_operates consistent place known₁
      (posing.later grows₁) (posing_integer 1) spares rfl operates runSum
      (later₃.no_errors (later₂.no_errors sound))
    obtain ⟨t', type⟩ := Option.isSome_iff_exists.1 some
    obtain ⟨rfl, rfl⟩ := assigned t' type
    obtain ⟨_, _, -, -, nothing, rfl⟩ := goes (by simp [Elaborated.ofNode, type])
    obtain ⟨rfl, rfl, rfl⟩ := elaborateParts_nil_steps nothing
    have slot : (s₃.frame.slotFor ⟨here.activation.path, "i"⟩).1 = x := by
      rw [FrameSlots.slotFor, (integral.later grows₃ known known₃ scope).found]
    rw [slot, code]
    refine ⟨body.ty, parameters, locals, argument, body, addends,
      fun t member => Nat.le_trans grows₁.slots (fresh t member), .part List.mem_cons_self (.self _),
      fun p m n v m₁ _ counted counted' run => ?_⟩
    have yielded : p.Returns ⟨body.ty, .yield parameters locals [argument] body⟩ m v m₁ :=
      Typed.returns_yield (Typed.returnsAll_cons (counted ▸ given p m) (Typed.returnsAll_nil p m)) run
    exact ⟨_, Typed.returns_sequence_cons yielded (Typed.returns_sequence_last
      (Typed.returns_assign (returns p m₁ n 1 _ counted' rfl rfl)))⟩

/-- The loop of a method that counts, which itself stops only where its test fails. -/
theorem elaborateExpr_loops {order : String} {operation : Primitive} {bound : Operand} {y : SlotId}
    (consistent : cx.definitions.Consistent) (spares : cx.definitions.Spares "+")
    (compares : cx.definitions.Compares order operation) (place : here.Known cx .all)
    (known : s.Known cx .all) (origin : here.activation.origin = .expansion block site definer)
    (integral : s.Integral ⟨here.activation.path, "i"⟩ x) (posing : Posing cx here s bound (·.slot y))
    (counts : e.countsBy order bound = true)
    (h : elaborateExpr cx fuel here e s = some (l, s')) (sound : s'.errors = []) :
    l.ends.normal.isSome = true ∧ ∃ loop : CountingLoop, ∃ ty id condition round, loop.counter = x ∧
      (∀ t ∈ loop.compared ++ loop.addends, s.frame.slots.length ≤ t.val) ∧
      loop.Turns operation y condition round ∧ l.code = ⟨ty, .while id condition round⟩ := by
  obtain ⟨condition, number, span, given, next, form, operates, poses, sets⟩ :=
    Expr.countsBy_form counts
  obtain ⟨n, h⟩ := elaborateExpr_form h
  simp only [elaborateForm, form] at h
  have own := BodyContext.scopeOf_expansion origin cx.captures "i"
  have growing := elaborateExpr_grows cx n
  obtain ⟨test, s₁, run₁, rest⟩ := elaborateWhile_steps h
  have grows₁ := growing _ _ _ _ _ run₁
  have known₁ := (elaborateExpr_known_all consistent n _ _ _ _ _ trivial place known run₁).1
  have sound₁ : s₁.errors = [] := by
    rcases rest with ⟨-, -, rfl⟩ | ⟨-, b, s₂, run₂, rfl, -⟩
    · exact sound
    · exact (elaborateBody_grows growing run₂).no_errors sound
  obtain ⟨goes, compared, fresh, tests⟩ := elaborateExpr_operates consistent place known
    (posing_read consistent place known own integral) posing compares.spares compares.resolved
    operates run₁ sound₁
  rcases rest with ⟨stops, -, -⟩ | ⟨-, b, s₂, run₂, rfl, rfl⟩
  · rw [stops] at goes
    cases goes
  have scope := place.ownVar own
  have known₂ : PassState.Known cx .all { s₁ with nextLoop := s₁.nextLoop + 1 } := { known₁ with }
  have integral₁ := integral.later grows₁ known known₁ scope
  obtain ⟨ty, parameters, locals, argument, body, addends, fresh', stays, runs⟩ :=
    elaborateBody_runs consistent spares (place.inLoop e.id ⟨s₁.nextLoop⟩) known₂ origin
      ⟨integral₁.found, integral₁.holds⟩ poses sets run₂ sound
  have literal : condition.alwaysTrue = false := by
    obtain ⟨receiver, span, argument, form, -⟩ := Expr.operates_form operates
    rw [Expr.alwaysTrue, form]
  refine ⟨?_, ⟨x, parameters, locals, body, compared, addends⟩, _, _, test.code, b.code, rfl,
    fun t member => ?_, ⟨fun p m a limit counted limited => ?_, runs, ⟨ty, [argument], stays⟩⟩, rfl⟩
  · simp [Elaborated.ofNode, literal, Completions.throughLoop_eq, Completions.joinNormal,
      Ty.mergeOption_isSome]
  · rcases List.mem_append.1 member with test | sum
    · exact fresh t test
    · exact Nat.le_trans grows₁.slots (fresh' t sum)
  · exact tests p m a limit _ counted limited (compares.result a limit)

/-- The body of a method that counts is such a loop. Its temporary slots are new. -/
theorem elaborateBody_fills {m : MethodDef} {order : String} {operation : Primitive}
    {start bound : Operand} {value : Machine → Value} {y : SlotId}
    (consistent : cx.definitions.Consistent) (spares : cx.definitions.Spares "+")
    (compares : cx.definitions.Compares order operation) (place : here.Known cx .all)
    (known : s.Known cx .all) (origin : here.activation.origin = .expansion block site definer)
    (starting : Posing cx here s start value) (bounding : Posing cx here s bound (·.slot y))
    (counts : m.counts order start bound = true)
    (h : elaborateBody (elaborateExpr cx fuel) here m.body s = some (l, s')) (sound : s'.errors = []) :
    ∃ loop : CountingLoop, ∃ first, (∀ (p : Typed.Program) m, p.Returns first m (value m) m) ∧
      loop.Fills operation first y here.activation.selfSlot l.code ∧
      s'.frame.find? ⟨here.activation.path, "i"⟩ = some loop.counter ∧
      ∀ t ∈ loop.compared ++ loop.addends, s.frame.slots.length ≤ t.val ∧ loop.counter ≠ t := by
  obtain ⟨e₁, e₂, e₃, body, sets, counts, poses⟩ := MethodDef.counts_body counts
  rw [body] at h
  have growing := elaborateExpr_grows cx fuel
  have knowing : (elaborateExpr cx fuel).Knowing cx .all := elaborateExpr_known_all consistent fuel
  have own := BodyContext.scopeOf_expansion origin cx.captures "i"
  have scope := place.ownVar own
  rcases elaborateBody_steps h with ⟨empty, -⟩ | ⟨-, parts, ends, run, rfl⟩
  · cases empty
  obtain ⟨l₁, s₁, run₁, later₁, goes, -⟩ := elaborateParts_reached growing rfl run
  have known₁ := (knowing _ _ _ _ _ trivial place known run₁).1
  obtain ⟨n, written, first, s₀, posed, runStart, -, assigned⟩ :=
    elaborateExpr_sets origin sets run₁
  obtain ⟨known₀, kept₀⟩ :=
    elaborateExpr_known_all consistent n _ _ _ _ _ trivial place known runStart
  have grows₀ := elaborateExpr_grows cx n _ _ _ _ _ runStart
  obtain ⟨⟨t, normal, int⟩, returns⟩ := starting _ _ _ _ _ posed (.refl s) known runStart
  obtain ⟨rfl, rfl⟩ := assigned t normal
  have integral := integral_assigned known₀ place own (kept₀.ends.normal t normal) int
  have grows₁ := growing _ _ _ _ _ run₁
  obtain ⟨_, ends₁, falls₁, -, rest₁, rfl⟩ := goes (by simp [Elaborated.ofNode, normal])
  obtain ⟨l₂, s₂, run₂, later₂, goes, -⟩ := elaborateParts_reached growing falls₁ rest₁
  have known₂ := (knowing _ _ _ _ _ trivial place known₁ run₂).1
  obtain ⟨falls, loop, ty, id, condition, round, counter, fresh, turns, code⟩ :=
    elaborateExpr_loops consistent spares compares place known₁ origin integral
      (bounding.later grows₁) counts run₂ (later₂.no_errors sound)
  obtain ⟨_, ends₂, falls₂, -, rest₂, rfl⟩ := goes falls
  obtain ⟨l₃, s₃, run₃, -, goes, -⟩ := elaborateParts_reached growing falls₂ rest₂
  obtain ⟨_, run₃⟩ := elaborateExpr_form run₃
  simp only [elaborateForm, Expr.poses_form poses, Operand.form] at run₃
  obtain ⟨rfl, rfl⟩ := pure_eq_some.1 run₃
  obtain ⟨_, ends₃, -, -, nothing, rfl⟩ := goes rfl
  obtain ⟨rfl, rfl, rfl⟩ := elaborateParts_nil_steps nothing
  have grows₂ := growing _ _ _ _ _ run₂
  have low := known₁.slots.numbered.find?_lt integral.found
  refine ⟨loop, first.code, returns, ⟨ends.normal, first.ends.normal, ty,
    some here.activation.selfType, id, condition, round, turns, ?_⟩, ?_, fun t member => ?_⟩
  · rw [code, counter]
    rfl
  · rw [counter]
    exact (integral.later grows₂ known₁ known₂ scope).found
  · have high := fresh t member
    refine ⟨Nat.le_trans grows₁.slots high, fun same => ?_⟩
    rw [counter] at same
    rw [same] at low
    omega

end Loops

end Inference

end TypedBlocks

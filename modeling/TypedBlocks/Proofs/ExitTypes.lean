import TypedBlocks.Proofs.CarriedExits
import TypedBlocks.Proofs.MergedTypes

/-!
# Types of exits, exactly

The type that completions hold for a target is put together from the types of the values that go
there, each counted once, as long as no target has two entries.
-/
namespace TypedBlocks

open Inference (RunTarget)

section Entries

variable {α : Type} [BEq α] [LawfulBEq α] {key k : α} {t : Ty} {es fs : List (α × Ty)}

theorem lookup_extendAt_self : (extendAt key t es).lookup key =
    Ty.mergeOption (es.lookup key) (some t) := by
  rw [Inference.extendAt_eq, Inference.lookup_updateAt_self]
  cases es.lookup key <;> rfl

theorem lookup_extendAt_ne (other : k ≠ key) : (extendAt key t es).lookup k = es.lookup k := by
  rw [Inference.extendAt_eq, Inference.lookup_updateAt_ne other]

/-- No key is entered twice. -/
def Apart (es : List (α × Ty)) : Prop := es.Pairwise fun e f => ¬ (e.1 == f.1) = true

/-- Entries added to others one by one. -/
def extendAll (es fs : List (α × Ty)) : List (α × Ty) := fs.foldl (fun es f => extendAt f.1 f.2 es) es

omit [LawfulBEq α] in
theorem Apart.extendAt (apart : Apart es) (key : α) (t : Ty) : Apart (extendAt key t es) := by
  rw [Apart, Inference.extendAt_eq]
  exact Inference.updateAt_apart apart

omit [LawfulBEq α] in
theorem Apart.extendAll (apart : Apart es) (fs : List (α × Ty)) : Apart (extendAll es fs) := by
  induction fs generalizing es with
  | nil => exact apart
  | cons f fs ih => exact ih (apart.extendAt f.1 f.2)

theorem lookup_extendAll (apart : Apart fs) :
    (extendAll es fs).lookup k = Ty.mergeOption (es.lookup k) (fs.lookup k) := by
  induction fs generalizing es with
  | nil =>
    change es.lookup k = _
    cases es.lookup k <;> rfl
  | cons f fs ih =>
    obtain ⟨first, rest⟩ := List.pairwise_cons.1 apart
    rw [extendAll, List.foldl_cons, ← extendAll, ih rest]
    by_cases here : k = f.1
    · subst here
      have absent : fs.lookup f.1 = none :=
        List.lookup_eq_none_iff.2 fun e member => by simpa using first e member
      rw [lookup_extendAt_self, absent, List.lookup_cons_self]
      cases es.lookup f.1 <;> rfl
    · rw [lookup_extendAt_ne here, List.lookup_cons, beq_false_of_ne here]

omit [LawfulBEq α] in
theorem removeAt_sublist : (removeAt key es).Sublist es := by
  induction es with
  | nil => exact .slnil
  | cons e es ih =>
    rw [removeAt]
    split
    · exact .cons e (.refl es)
    · exact ih.cons_cons e

end Entries

namespace Completions

variable {c d : Completions} {target : RunTarget} {t : Ty}

theorem foldl_add_returns (rs : List (FrameId × Ty)) (c : Completions) :
    (rs.map fun (f, t) => Completion.return f t).foldl add c =
      { c with returns := extendAll c.returns rs } := by
  induction rs generalizing c with
  | nil => rfl
  | cons r rs ih => rw [List.map_cons, List.foldl_cons, ih]; rfl

theorem foldl_add_breaks (bs : List (BreakTarget × Ty)) (c : Completions) :
    (bs.map fun (b, t) => Completion.break b t).foldl add c =
      { c with breaks := extendAll c.breaks bs } := by
  induction bs generalizing c with
  | nil => rfl
  | cons b bs ih => rw [List.map_cons, List.foldl_cons, ih]; rfl

theorem join_eq (c d : Completions) : c.join d =
    ⟨(c.join d).normal, extendAll c.returns d.returns, extendAll c.breaks d.breaks⟩ := by
  have normal : (d.normal.toList.map Completion.normal).foldl add c = c.joinNormal d.normal := by
    cases d.normal with
    | none =>
      rcases c with ⟨_ | t, returns, breaks⟩ <;> rfl
    | some t => rfl
  rw [join, toList, List.foldl_append, List.foldl_append, normal, foldl_add_returns,
    foldl_add_breaks]
  rfl

/-- No target is entered twice. -/
structure Keyed (c : Completions) : Prop where
  returns : Apart c.returns
  breaks : Apart c.breaks

theorem exitTy?_join (keyed : d.Keyed) :
    (c.join d).exitTy? target = Ty.mergeOption (c.exitTy? target) (d.exitTy? target) := by
  rw [join_eq]
  cases target with
  | frame id => exact lookup_extendAll keyed.returns
  | «break» b => exact lookup_extendAll keyed.breaks

/-- A value that is sent to the target adds its type there. -/
theorem exitTy?_add {x : Completion} (exit : x.exit? = some (target, t)) :
    (c.add x).exitTy? target = Ty.mergeOption (c.exitTy? target) (some t) := by
  cases x <;> cases exit <;> exact lookup_extendAt_self

theorem exitTy?_add_ne {x : Completion} (other : ∀ t, x.exit? ≠ some (target, t)) :
    (c.add x).exitTy? target = c.exitTy? target := by
  cases x with
  | normal u => exact exitTy?_joinNormal _
  | «return» id u =>
    cases target with
    | frame id' => exact lookup_extendAt_ne fun same => other u (same ▸ rfl)
    | «break» b => rfl
  | «break» b u =>
    cases target with
    | frame id => rfl
    | «break» b' => exact lookup_extendAt_ne fun same => other u (same ▸ rfl)

namespace Keyed

theorem never : never.Keyed := ⟨List.Pairwise.nil, List.Pairwise.nil⟩

theorem ofNormal (t : Ty) : (ofNormal t).Keyed := ⟨List.Pairwise.nil, List.Pairwise.nil⟩

variable (keyed : c.Keyed)

include keyed

theorem dropNormal : c.dropNormal.Keyed := ⟨keyed.returns, keyed.breaks⟩

theorem joinNormal (t : Option Ty) : (c.joinNormal t).Keyed := ⟨keyed.returns, keyed.breaks⟩

theorem add (x : Completion) : (c.add x).Keyed := by
  cases x with
  | normal t => exact keyed.joinNormal _
  | «return» f t => exact ⟨keyed.returns.extendAt f t, keyed.breaks⟩
  | «break» b t => exact ⟨keyed.returns, keyed.breaks.extendAt b t⟩

theorem join (d : Completions) : (c.join d).Keyed := by
  rw [join_eq]
  exact ⟨keyed.returns.extendAll d.returns, keyed.breaks.extendAll d.breaks⟩

theorem andThen (d : Completions) : (c.andThen d).Keyed := by
  rw [Completions.andThen]
  split
  · exact keyed.dropNormal.join d
  · exact keyed

theorem dropReturn (frame : FrameId) : (c.dropReturn frame).Keyed :=
  c.dropReturn_eq frame ▸ ⟨keyed.returns.sublist removeAt_sublist, keyed.breaks⟩

theorem dropBreak (target : BreakTarget) : (c.dropBreak target).Keyed :=
  c.dropBreak_eq target ▸ ⟨keyed.returns, keyed.breaks.sublist removeAt_sublist⟩

theorem throughCall (site : SiteId) (frame : FrameId) : (c.throughCall site frame).Keyed :=
  c.throughCall_eq site frame ▸ ((keyed.dropReturn frame).dropBreak _).joinNormal _

theorem throughLoop (id : LoopId) (terminates : Bool) : (c.throughLoop id terminates).Keyed := by
  have dropped := (keyed.dropNormal.dropBreak (.loop id)).joinNormal (c.breakTy? (.loop id))
  rw [throughLoop_eq]
  split
  · exact dropped.joinNormal _
  · exact dropped

end Keyed

theorem exitTy?_andThen (keyed : d.Keyed) (falls : c.fallsThrough = true) :
    (c.andThen d).exitTy? target = Ty.mergeOption (c.exitTy? target) (d.exitTy? target) := by
  rw [andThen, if_pos falls, exitTy?_join keyed, exitTy?_dropNormal]

end Completions

end TypedBlocks

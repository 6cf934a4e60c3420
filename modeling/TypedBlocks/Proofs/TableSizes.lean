import TypedBlocks.Proofs.FiniteKinds
import TypedBlocks.Proofs.FixedTables

/-!
# Sizes of tables

A table is as large as the members of its types and the number of its entries together. Growth never
makes a table smaller, a table that has grown and is no larger is the same, and over a finite
vocabulary sizes are bounded.
-/
namespace TypedBlocks.Inference

open Ty (Extended OptionExtended)

section Entries

variable {α β : Type} {R : β → β → Prop} {size : β → Nat} {es fs : List (α × β)}

/-- One for each entry, and the sizes of all values. -/
def entriesSize (size : β → Nat) (es : List (α × β)) : Nat := (es.map fun e => size e.2 + 1).sum

@[simp] theorem entriesSize_nil : entriesSize size ([] : List (α × β)) = 0 := rfl

@[simp] theorem entriesSize_cons (k : α) (b : β) :
    entriesSize size ((k, b) :: es) = size b + 1 + entriesSize size es := rfl

theorem Grown.size_le (grown : Grown R es fs)
    (values : ∀ e ∈ es, ∀ b, R e.2 b → size e.2 ≤ size b) :
    entriesSize size es ≤ entriesSize size fs := by
  induction grown with
  | new fs => exact Nat.zero_le _
  | @kept k a b es fs value _ ih =>
    rw [List.forall_mem_cons] at values
    have first : size a ≤ size b := values.1 _ value
    have rest := ih values.2
    simp only [entriesSize_cons]
    omega

/-- Entries that have grown and are no larger are the same. -/
theorem Grown.eq_of_size (grown : Grown R es fs)
    (values : ∀ e ∈ es, ∀ b, R e.2 b → size e.2 ≤ size b)
    (same : ∀ e ∈ es, ∀ b, R e.2 b → size b ≤ size e.2 → b = e.2)
    (sizes : entriesSize size fs ≤ entriesSize size es) : fs = es := by
  induction grown with
  | new fs =>
    cases fs with
    | nil => rfl
    | cons f fs =>
      rw [entriesSize_nil, entriesSize_cons f.1 f.2] at sizes
      omega
  | @kept k a b es fs value rest ih =>
    rw [List.forall_mem_cons] at values same
    have first : size a ≤ size b := values.1 _ value
    have others := rest.size_le values.2
    simp only [entriesSize_cons] at sizes
    have here : size b ≤ size a := by omega
    rw [same.1 _ value here, ih values.2 same.2 (by omega)]

theorem entriesSize_le {most : Nat} (values : ∀ e ∈ es, size e.2 ≤ most) :
    entriesSize size es ≤ es.length * (most + 1) := by
  induction es with
  | nil => exact Nat.zero_le _
  | cons e es ih =>
    rw [List.forall_mem_cons] at values
    have first : size e.2 ≤ most := values.1
    have rest := ih values.2
    rw [entriesSize_cons, List.length_cons, Nat.succ_mul]
    omega

end Entries

/-- How many members a type has. -/
def typeSize (t : Ty) : Nat := t.members.length

def resultSize : Option Ty → Nat
  | none => 0
  | some t => typeSize t + 1

def Tables.layoutSize (ts : Tables) : Nat := entriesSize (entriesSize typeSize) ts.layouts

/-- The size of all tables but the layouts. -/
def Tables.restSize (ts : Tables) : Nat :=
  entriesSize typeSize ts.vars + entriesSize resultSize ts.methods +
    (entriesSize typeSize ts.globals + entriesSize typeSize ts.constants)

section Growth

variable {α : Type} {t u : Ty} {es fs : List (α × Ty)} {ts us : Tables}

theorem typeSize_le (reduced : t.Reduced) (grown : Extended t u) : typeSize t ≤ typeSize u :=
  (reduced.prefix_extended grown).1.length_le

theorem resultSize_le {a b : Option Ty} (reduced : ∀ t ∈ a, t.Reduced)
    (grown : OptionExtended a b) : resultSize a ≤ resultSize b := by
  cases a with
  | none => exact Nat.zero_le _
  | some t =>
    cases b with
    | none => cases grown
    | some u => exact Nat.succ_le_succ (typeSize_le (reduced t rfl) grown)

theorem result_eq_of_size {a b : Option Ty} (reduced : ∀ t ∈ a, t.Reduced)
    (grown : OptionExtended a b) (sizes : resultSize b ≤ resultSize a) : b = a := by
  cases a with
  | none =>
    cases b with
    | none => rfl
    | some u => simp [resultSize] at sizes
  | some t =>
    cases b with
    | none => cases grown
    | some u => rw [(reduced t rfl).eq_of_extended grown (Nat.le_of_succ_le_succ sizes)]

theorem types_size_le (reduced : ∀ e ∈ es, e.2.Reduced) (grown : Grown Extended es fs) :
    entriesSize typeSize es ≤ entriesSize typeSize fs :=
  grown.size_le fun e member _ => typeSize_le (reduced e member)

theorem types_eq_of_size (reduced : ∀ e ∈ es, e.2.Reduced) (grown : Grown Extended es fs)
    (sizes : entriesSize typeSize fs ≤ entriesSize typeSize es) : fs = es :=
  grown.eq_of_size (fun e member _ => typeSize_le (reduced e member))
    (fun e member _ => (reduced e member).eq_of_extended) sizes

namespace Tables.Grows

variable (grows : ts.Grows us) (reduced : ts.Reduced)

include grows reduced

theorem layouts_eq_of_size (sizes : us.layoutSize ≤ ts.layoutSize) : us.layouts = ts.layouts :=
  grows.layouts.eq_of_size (fun e member _ => types_size_le (reduced.layouts e member).2)
    (fun e member _ => types_eq_of_size (reduced.layouts e member).2) sizes

/-- Tables that have grown and are no larger have not changed at all. -/
theorem eq_of_size (layouts : us.layouts = ts.layouts) (sizes : us.restSize ≤ ts.restSize) :
    us = ts := by
  have vars := types_size_le reduced.vars grows.vars
  have methods := grows.methods.size_le fun e member _ => resultSize_le (reduced.methods e member)
  have globals := types_size_le reduced.globals grows.globals
  have constants := types_size_le reduced.constants grows.constants
  simp only [Tables.restSize] at sizes
  have sameVars := types_eq_of_size reduced.vars grows.vars (by omega)
  have sameMethods := grows.methods.eq_of_size
    (fun e member _ => resultSize_le (reduced.methods e member))
    (fun e member _ => result_eq_of_size (reduced.methods e member)) (by omega)
  have sameGlobals := types_eq_of_size reduced.globals grows.globals (by omega)
  have sameConstants := types_eq_of_size reduced.constants grows.constants (by omega)
  cases ts
  cases us
  simp_all

end Tables.Grows

end Growth

section Bounds

variable {cx : Setting} {V : Vocabulary} {ts : Tables}

theorem typeSize_bounded (few : V.Few) : ∃ most, ∀ t, t.Known V → typeSize t ≤ most :=
  ⟨_, fun _ known => known.members_le Ty.knownMember_flat (Ty.finite_members few)⟩

theorem entries_bounded {α β κ : Type} [BEq α] {K : α → Prop} {T : β → Prop} {kind : α → κ}
    {size : β → Nat} (few : (kind '' {k | K k}).Finite)
    (agree : ∀ k l, K k → K l → kind k = kind l → (k == l) = true)
    (values : ∃ most, ∀ b, T b → size b ≤ most) :
    ∃ most, ∀ es : List (α × β), Entries K T es → entriesSize size es ≤ most := by
  obtain ⟨most, below⟩ := values
  refine ⟨_, fun es entries => Nat.le_trans (entriesSize_le fun e member => ?_)
    (Nat.mul_le_mul_right (most + 1) (entries.length_le few agree))⟩
  exact below _ (entries.each e member).2

theorem named_bounded {β : Type} {names : String → Prop} {T : β → Prop} {size : β → Nat}
    (few : {n | names n}.Finite) (values : ∃ most, ∀ b, T b → size b ≤ most) :
    ∃ most, ∀ es : List (String × β), Entries names T es → entriesSize size es ≤ most :=
  entries_bounded (few.image id) (fun _ _ _ _ => beq_of_eq) values

theorem layoutSize_bounded (cx : Setting) (few : V.Few) : ∃ most, ∀ ts : Tables, ts.Known cx V →
    ts.layoutSize ≤ most := by
  obtain ⟨most, below⟩ := typeSize_bounded few
  obtain ⟨most, bound⟩ := named_bounded few.classes (T := Ty.VarsKnown V)
    (named_bounded few.names (T := Ty.Bare V) ⟨most, fun t bare => below t bare.known⟩)
  exact ⟨most, fun ts known => bound _ known.layouts⟩

theorem restSize_bounded (cx : Setting) (few : V.Few) : ∃ most, ∀ ts : Tables, ts.Known cx V →
    ts.restSize ≤ most := by
  have types := typeSize_bounded few
  have results : ∃ most, ∀ a : Option Ty, (∀ t ∈ a, t.Known V) → resultSize a ≤ most := by
    obtain ⟨most, below⟩ := types
    refine ⟨most + 1, fun a known => ?_⟩
    cases a with
    | none => exact Nat.zero_le _
    | some t => exact Nat.succ_le_succ (below t (known t rfl))
  obtain ⟨vars, belowVars⟩ := entries_bounded (finite_vars cx few)
    (fun k l left right => (ScopeVar.beq_iff left.1.proper right.1.proper).2) types
  obtain ⟨methods, belowMethods⟩ := entries_bounded (finite_instantiations cx few)
    (fun k l left right => (Instantiation.beq_iff left.proper right.proper).2) results
  obtain ⟨names, belowNames⟩ := named_bounded few.names types
  refine ⟨vars + methods + (names + names), fun ts known => ?_⟩
  exact Nat.add_le_add (Nat.add_le_add (belowVars _ known.vars) (belowMethods _ known.methods))
    (Nat.add_le_add (belowNames _ known.globals) (belowNames _ known.constants))

end Bounds

end TypedBlocks.Inference

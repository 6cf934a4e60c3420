import TypedBlocks.Proofs.ExitNesting
import TypedBlocks.Proofs.FiniteKinds

/-!
# The vocabulary of a program

What a program is written with: the expressions in its statements and in the bodies of its methods,
the names and numbers that stand in them, and the classes that are defined or that a library function
is declared to give back. It has all that elaboration can come to, and it is finite.
-/
namespace TypedBlocks

/-- The expression stands in the other one, definitions left out. -/
inductive Expr.Within (d : Expr) : Expr → Prop
  | self : Within d d
  | part {p e : Expr} (direct : p ∈ e.parts) (inner : Within d p) : Within d e

namespace Expr

variable {c d e : Expr}

theorem sizeOf_part (part : d ∈ e.parts) : sizeOf d < sizeOf e := by
  have smaller := Form.sizeOf_part part
  rcases e with ⟨id, span, form⟩
  simp only [Expr.mk.sizeOf_spec]
  dsimp only at smaller
  omega

theorem Within.parts (inner : d.Within e) (part : c ∈ d.parts) : c.Within e := by
  induction inner with
  | self => exact .part part .self
  | part direct _ ih => exact .part direct ih

theorem finite_within (e : Expr) : {d : Expr | d.Within e}.Finite := by
  have below : (⋃ p ∈ {p | p ∈ e.parts}, {d : Expr | d.Within p}).Finite :=
    e.parts.finite_toSet.biUnion fun p part => finite_within p
  refine ((Set.finite_singleton e).union below).subset ?_
  rintro d (_ | ⟨direct, inner⟩)
  · exact .inl rfl
  · exact .inr (Set.mem_biUnion direct inner)
termination_by sizeOf e
decreasing_by exact sizeOf_part part

/-- The names that an expression itself mentions or binds. -/
def ownNames (e : Expr) : List String :=
  match e.form with
  | .read v | .assign v _ _ => [v.name]
  | .call _ _ _ _ block => block.toList.flatMap fun b => b.parameters.map (·.name)
  | _ => []

/-- The numbers of an expression itself and of its block. -/
def ownNodes (e : Expr) : List NodeId :=
  match e.form with
  | .call _ _ _ _ block => e.id :: block.toList.map (·.id)
  | _ => [e.id]

end Expr

/-- The expressions that elaboration starts from. -/
def Definitions.roots (d : Definitions) (statements : List Expr) : List Expr :=
  statements ++ d.methods.toList.flatMap (·.definition.body)

namespace Vocabulary

/-- All that the statements and the methods are written with. -/
def ofProgram (d : Definitions) (statements : List Expr) : Vocabulary where
  exprs e := ∃ root ∈ d.roots statements, e.Within root
  classes c := d.isClass c = true ∨ d.isLib c = true ∨ ∃ f ∈ d.foreigns, f.returnType = some c
  names n := (∃ root ∈ d.roots statements, ∃ e : Expr, e.Within root ∧ n ∈ e.ownNames) ∨
    ∃ m ∈ d.methods.toList, n ∈ m.parameters.map (·.name)
  nodes id := ∃ root ∈ d.roots statements, ∃ e : Expr, e.Within root ∧ id ∈ e.ownNodes

variable {d : Definitions} {statements : List Expr}

theorem ofProgram_covers (cx : Inference.Setting) (statements : List Expr) :
    (ofProgram cx.definitions statements).Covers cx where
  parts := by
    rintro e ⟨root, listed, inside⟩ d part
    exact ⟨root, listed, inside.parts part⟩
  read := by
    rintro e v ⟨root, listed, inside⟩ form
    exact .inl ⟨root, listed, e, inside, by simp [Expr.ownNames, form]⟩
  assigned := by
    rintro e v span value ⟨root, listed, inside⟩ form
    exact .inl ⟨root, listed, e, inside, by simp [Expr.ownNames, form]⟩
  calls := by
    rintro e receiver name span arguments block ⟨root, listed, inside⟩ form
    refine ⟨⟨root, listed, e, inside, by simp [Expr.ownNodes, form]⟩, ?_⟩
    rintro b rfl
    refine ⟨⟨root, listed, e, inside, by simp [Expr.ownNodes, form]⟩, fun p member => ?_⟩
    have named : p.name ∈ e.ownNames := by
      simpa [Expr.ownNames, form] using ⟨p, member, rfl⟩
    exact .inl ⟨root, listed, e, inside, named⟩
  classes := by
    intro c known
    rw [Bool.or_eq_true] at known
    exact known.imp_right .inl
  results := by
    intro lib name f t declared result
    have listed := List.mem_of_find?_eq_some declared
    exact ForeignEntry.resultTy?_known (fun c named => .inr (.inr ⟨f, listed, named⟩)) result
  methods := by
    intro id m found
    have listed : m ∈ cx.definitions.methods.toList :=
      Array.mem_toList_iff.2 (Array.mem_of_getElem? found)
    refine ⟨fun p member => .inr ⟨m, listed, List.mem_map_of_mem member⟩, fun e member => ?_⟩
    exact ⟨e, List.mem_append_right _ (List.mem_flatMap.2 ⟨m, listed, member⟩), .self⟩

theorem finite_exprs (d : Definitions) (statements : List Expr) :
    {e | (ofProgram d statements).exprs e}.Finite := by
  refine ((d.roots statements).finite_toSet.biUnion fun root _ => root.finite_within).subset ?_
  rintro e ⟨root, listed, inside⟩
  exact Set.mem_biUnion (s := {r | r ∈ d.roots statements}) listed inside

/-- Whatever stands in the expressions themselves is finite. -/
theorem finite_own {α : Type} (own : Expr → List α) (d : Definitions) (statements : List Expr) :
    {a | ∃ root ∈ d.roots statements, ∃ e : Expr, e.Within root ∧ a ∈ own e}.Finite := by
  refine ((finite_exprs d statements).biUnion fun e _ => (own e).finite_toSet).subset ?_
  rintro a ⟨root, listed, e, inside, member⟩
  exact Set.mem_biUnion (s := {e | (ofProgram d statements).exprs e}) ⟨root, listed, inside⟩ member

theorem ofProgram_few (d : Definitions) (statements : List Expr) :
    (ofProgram d statements).Few where
  classes := by
    have classes := (d.classes.map (·.name)).finite_toSet
    have foreigns := (d.foreigns.filterMap (·.returnType)).finite_toSet
    refine (classes.union (d.libs.finite_toSet.union foreigns)).subset ?_
    rintro c (defined | lib | ⟨f, listed, result⟩)
    · rw [Definitions.isClass, Definitions.class?, List.find?_isSome] at defined
      obtain ⟨entry, listed, same⟩ := defined
      exact .inl (List.mem_map.2 ⟨entry, listed, by simpa using same⟩)
    · exact .inr (.inl (by simpa [Definitions.isLib] using lib))
    · exact .inr (.inr (List.mem_filterMap.2 ⟨f, listed, result⟩))
  names := by
    have parameters := (d.methods.toList.flatMap fun m => m.parameters.map (·.name)).finite_toSet
    refine ((finite_own Expr.ownNames d statements).union parameters).subset ?_
    rintro n (own | ⟨m, listed, parameter⟩)
    · exact .inl own
    · exact .inr (List.mem_flatMap.2 ⟨m, listed, parameter⟩)
  nodes := finite_own Expr.ownNodes d statements

/-- The expressions of a program are of bounded size. -/
theorem exprs_bounded (d : Definitions) (statements : List Expr) :
    ∃ most, ∀ e, (ofProgram d statements).exprs e → sizeOf e ≤ most := by
  obtain ⟨most, below⟩ := ((finite_exprs d statements).image fun e => sizeOf e).bddAbove
  exact ⟨most, fun e inside => below ⟨e, inside, rfl⟩⟩

end Vocabulary

end TypedBlocks

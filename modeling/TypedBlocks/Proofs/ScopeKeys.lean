import TypedBlocks.Inference.Tables
import TypedBlocks.Proofs.TypeSameness

/-!
# Keys up to sameness

Keys that hold types are compared up to sameness of types. Where all types are proper, two keys are
the same exactly when their kinds, in which every type is replaced by its kind, are equal; a scope is
nested in another exactly when its kind ends with the kind of the other.
-/
namespace TypedBlocks.Inference

/-- A method for one choice of types up to sameness. -/
structure InstantiationKind where
  method : MethodId
  selfType : Ty.Kind
  arguments : List Ty.Kind

/-- A level of nesting up to sameness of the types in it. -/
inductive LevelKind where
  | main
  | instance (key : InstantiationKind)
  | inline (site : NodeId) (key : InstantiationKind)
  | block (id : NodeId)

/-- The nesting of a scope up to sameness, the innermost level first. -/
abbrev PathKind := List LevelKind

/-- A variable up to sameness of the types in its scope. -/
structure VarKind where
  path : PathKind
  name : String

def Instantiation.Proper (k : Instantiation) : Prop :=
  k.selfType.Proper ∧ ∀ t ∈ k.arguments, t.Proper

def Instantiation.kind (k : Instantiation) : InstantiationKind :=
  ⟨k.method, k.selfType.kind, k.arguments.map Ty.kind⟩

def ScopeLevel.Proper : ScopeLevel → Prop
  | .instance k | .inline _ k => k.Proper
  | .main | .block _ => True

def ScopeLevel.kind : ScopeLevel → LevelKind
  | .main => .main
  | .instance k => .instance k.kind
  | .inline site k => .inline site k.kind
  | .block id => .block id

/-- All levels of a scope are proper. -/
def ProperPath (path : ScopeChain) : Prop := ∀ level ∈ path, level.Proper

def pathKind (path : ScopeChain) : PathKind := path.map ScopeLevel.kind

def ScopeVar.Proper (k : ScopeVar) : Prop := ProperPath k.path

def ScopeVar.kind (k : ScopeVar) : VarKind := ⟨pathKind k.path, k.name⟩

section Sameness

theorem sameTypes_iff {ts us : List Ty} (left : ∀ t ∈ ts, t.Proper) (right : ∀ u ∈ us, u.Proper) :
    sameTypes ts us = true ↔ ts.map Ty.kind = us.map Ty.kind := by
  induction ts generalizing us with
  | nil => cases us <;> simp [sameTypes]
  | cons t ts ih =>
    cases us with
    | nil => simp [sameTypes]
    | cons u us =>
      rw [List.forall_mem_cons] at left right
      rw [sameTypes, Bool.and_eq_true, ih left.2 right.2, List.map_cons, List.map_cons,
        List.cons.injEq, Ty.kind_eq_iff left.1 right.1]

theorem Instantiation.beq_iff {k l : Instantiation} (left : k.Proper) (right : l.Proper) :
    (k == l) = true ↔ k.kind = l.kind := by
  change (k.method == l.method && k.selfType == l.selfType &&
    sameTypes k.arguments l.arguments) = true ↔ _
  rw [Bool.and_eq_true, Bool.and_eq_true, beq_iff_eq, ← Ty.kind_eq_iff left.1 right.1,
    sameTypes_iff left.2 right.2]
  simp only [Instantiation.kind, InstantiationKind.mk.injEq, and_assoc]

theorem ScopeLevel.beq_iff {s t : ScopeLevel} (left : s.Proper) (right : t.Proper) :
    (s == t) = true ↔ s.kind = t.kind := by
  cases s <;> cases t <;>
    first
    | exact iff_of_true rfl rfl
    | exact iff_of_false Bool.false_ne_true nofun
    | skip
  · rename_i k l
    change (k == l) = true ↔ _
    rw [Instantiation.beq_iff left right]
    simp only [ScopeLevel.kind, LevelKind.instance.injEq]
  · rename_i site k site' l
    change (site == site' && k == l) = true ↔ _
    rw [Bool.and_eq_true, Instantiation.beq_iff left right, beq_iff_eq]
    simp only [ScopeLevel.kind, LevelKind.inline.injEq]
  · rename_i b c
    change (b == c) = true ↔ _
    simp only [beq_iff_eq, ScopeLevel.kind, LevelKind.block.injEq]

theorem samePath_iff {p q : ScopeChain} (left : ProperPath p) (right : ProperPath q) :
    samePath p q = true ↔ pathKind p = pathKind q := by
  induction p generalizing q with
  | nil => cases q <;> simp [samePath, pathKind]
  | cons s p ih =>
    cases q with
    | nil => simp [samePath, pathKind]
    | cons t q =>
      unfold ProperPath at left right
      rw [List.forall_mem_cons] at left right
      rw [samePath, Bool.and_eq_true, ScopeLevel.beq_iff left.1 right.1, ih left.2 right.2]
      simp only [pathKind, List.map_cons, List.cons.injEq]

theorem ScopeVar.beq_iff {k l : ScopeVar} (left : k.Proper) (right : l.Proper) :
    (k == l) = true ↔ k.kind = l.kind := by
  change (k.name == l.name && samePath k.path l.path) = true ↔ _
  rw [Bool.and_eq_true, samePath_iff left right, beq_iff_eq]
  simp only [ScopeVar.kind, VarKind.mk.injEq, and_comm]

theorem isWithin_iff {path outer : ScopeChain} (left : ProperPath path) (right : ProperPath outer) :
    isWithin path outer = true ↔ pathKind outer <:+ pathKind path := by
  unfold isWithin
  rw [Bool.and_eq_true, decide_eq_true_eq,
    samePath_iff (fun level member => left level (List.mem_of_mem_drop member)) right,
    List.suffix_iff_eq_drop]
  simp only [pathKind, List.length_map, List.map_drop]
  constructor
  · exact fun within => within.2.symm
  · intro same
    have shorter := congrArg List.length same
    simp only [List.length_drop, List.length_map] at shorter
    exact ⟨by omega, same.symm⟩

end Sameness

section Lookup

variable {α κ β : Type} [BEq α] {kind : α → κ} {P : α → Prop}

/-- Keys of one kind find the same entry. -/
theorem lookup_kind (agree : ∀ k l, P k → P l → ((k == l) = true ↔ kind k = kind l))
    {entries : List (α × β)} (proper : ∀ e ∈ entries, P e.1) {k l : α} (left : P k)
    (right : P l) (same : kind k = kind l) : entries.lookup k = entries.lookup l := by
  induction entries with
  | nil => rfl
  | cons e entries ih =>
    obtain ⟨key, value⟩ := e
    rw [List.forall_mem_cons] at proper
    have found : (k == key) = (l == key) := by
      rw [Bool.eq_iff_iff, agree k key left proper.1, agree l key right proper.1, same]
    rw [List.lookup_cons, List.lookup_cons, found, ih proper.2]

end Lookup

end TypedBlocks.Inference

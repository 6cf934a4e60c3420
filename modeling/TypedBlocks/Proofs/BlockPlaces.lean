import Mathlib.Data.List.Nodup
import TypedBlocks.Proofs.NodeNumbers

/-!
# Blocks and the scopes around them

Where the blocks of a program stand, read off the program alone: each with the bodies and blocks
around it, and the variables that these have introduced before it in the order of evaluation.
-/
namespace TypedBlocks

mutual

/-- Local variables that an expression assigns in the scope it stands in, in the order of
evaluation. Blocks and definitions have scopes of their own. -/
def Expr.assigns : Expr → List String
  | ⟨_, _, form⟩ => form.assigns

def Form.assigns : Form → List String
  | .literal _ | .read _ | .self | .defMethod _ | .defClass _ | .defLib _ => []
  | .assign target _ value =>
    value.assigns ++ (match target.kind with | .local => [target.name] | _ => [])
  | .call receiver _ _ arguments _ => optionAssigns receiver ++ listAssigns arguments
  | .yield arguments => listAssigns arguments
  | .return value | .break value => optionAssigns value
  | .conditional _ condition consequent alternative =>
    condition.assigns ++ listAssigns consequent ++ bodyAssigns alternative
  | .while condition body => condition.assigns ++ listAssigns body
  | .logical _ left right => left.assigns ++ right.assigns
  | .not operand => operand.assigns

def listAssigns : List Expr → List String
  | [] => []
  | e :: es => e.assigns ++ listAssigns es

def optionAssigns : Option Expr → List String
  | none => []
  | some e => e.assigns

def bodyAssigns : Option (List Expr) → List String
  | none => []
  | some es => listAssigns es

end

def Block.names (b : Block) : List String := b.parameters.map (·.name)

mutual

/-- Local variables that an expression reads or assigns, blocks in it included but for their
parameters, and definitions left out. -/
def Expr.mentions : Expr → List String
  | ⟨_, _, form⟩ => form.mentions

def Form.mentions : Form → List String
  | .literal _ | .self | .defMethod _ | .defClass _ | .defLib _ => []
  | .read target => match target.kind with | .local => [target.name] | _ => []
  | .assign target _ value =>
    value.mentions ++ (match target.kind with | .local => [target.name] | _ => [])
  | .call receiver _ _ arguments block =>
    optionMentions receiver ++ listMentions arguments ++ blockMentions block
  | .yield arguments => listMentions arguments
  | .return value | .break value => optionMentions value
  | .conditional _ condition consequent alternative =>
    condition.mentions ++ listMentions consequent ++ bodyMentions alternative
  | .while condition body => condition.mentions ++ listMentions body
  | .logical _ left right => left.mentions ++ right.mentions
  | .not operand => operand.mentions

def listMentions : List Expr → List String
  | [] => []
  | e :: es => e.mentions ++ listMentions es

def optionMentions : Option Expr → List String
  | none => []
  | some e => e.mentions

def bodyMentions : Option (List Expr) → List String
  | none => []
  | some es => listMentions es

def blockMentions : Option Block → List String
  | none => []
  | some ⟨_, _, parameters, body⟩ =>
    (listMentions body).filter fun n => !(parameters.map (·.name)).contains n

end

/-- A scope around a place: the body of a method or of the program, or a block; and the variables
that it has assigned before the place in the order of evaluation. -/
structure LexicalScope where
  block : Option Block
  parameters : List String
  assigned : List String

namespace LexicalScope

/-- The body of a method with the given parameters, at its start. -/
def ofBody (parameters : List String) : LexicalScope := ⟨none, parameters, []⟩

def ofBlock (b : Block) : LexicalScope := ⟨some b, b.names, []⟩

def Introduces (l : LexicalScope) (n : String) : Prop := n ∈ l.parameters ∨ n ∈ l.assigned

end LexicalScope

/-- Some scope around the place has introduced the variable. -/
def Visible (around : List LexicalScope) (n : String) : Prop := ∃ l ∈ around, l.Introduces n

/-- The innermost scope assigns variables. -/
def assignInnermost (names : List String) : List LexicalScope → List LexicalScope
  | [] => []
  | l :: outer => { l with assigned := l.assigned ++ names } :: outer

/-- A block literal and the scopes around it, the innermost first. -/
structure BlockPlace where
  block : Block
  around : List LexicalScope

mutual

/-- The blocks in an expression, those in definitions included. -/
def Expr.places (around : List LexicalScope) : Expr → List BlockPlace
  | ⟨_, _, form⟩ => form.places around

def Form.places (around : List LexicalScope) : Form → List BlockPlace
  | .literal _ | .read _ | .self | .defLib _ => []
  | .assign _ _ value => value.places around
  | .call receiver _ _ arguments block =>
    optionPlaces around receiver ++
      listPlaces (assignInnermost (optionAssigns receiver) around) arguments ++
      blockPlaces (assignInnermost (optionAssigns receiver ++ listAssigns arguments) around) block
  | .yield arguments => listPlaces around arguments
  | .return value | .break value => optionPlaces around value
  | .conditional _ condition consequent alternative =>
    condition.places around ++
      listPlaces (assignInnermost condition.assigns around) consequent ++
      bodyPlaces (assignInnermost (condition.assigns ++ listAssigns consequent) around) alternative
  | .while condition body =>
    condition.places around ++ listPlaces (assignInnermost condition.assigns around) body
  | .logical _ left right => left.places around ++ right.places (assignInnermost left.assigns around)
  | .not operand => operand.places around
  | .defMethod m => m.places
  | .defClass ⟨_, _, _, _, methods⟩ => methodsPlaces methods

def MethodDef.places : MethodDef → List BlockPlace
  | ⟨_, _, _, parameters, body⟩ =>
    listPlaces [LexicalScope.ofBody (parameters.map (·.name))] body

def methodsPlaces : List MethodDef → List BlockPlace
  | [] => []
  | m :: ms => m.places ++ methodsPlaces ms

def listPlaces (around : List LexicalScope) : List Expr → List BlockPlace
  | [] => []
  | e :: es => e.places around ++ listPlaces (assignInnermost e.assigns around) es

def optionPlaces (around : List LexicalScope) : Option Expr → List BlockPlace
  | none => []
  | some e => e.places around

def bodyPlaces (around : List LexicalScope) : Option (List Expr) → List BlockPlace
  | none => []
  | some es => listPlaces around es

def blockPlaces (around : List LexicalScope) : Option Block → List BlockPlace
  | none => []
  | some ⟨id, span, parameters, body⟩ =>
    ⟨⟨id, span, parameters, body⟩, around⟩ ::
      listPlaces (⟨some ⟨id, span, parameters, body⟩, parameters.map (·.name), []⟩ :: around) body

end

/-- The blocks of a program made of several bodies that share their top level. -/
def programPlaces (bodies : List (List Expr)) : List BlockPlace :=
  listPlaces [LexicalScope.ofBody []] bodies.flatten

/-- The numbers of the blocks at some places. -/
def placeIds (places : List BlockPlace) : List Nat := places.map (·.block.id.val)

@[simp] theorem placeIds_append (ps qs : List BlockPlace) :
    placeIds (ps ++ qs) = placeIds ps ++ placeIds qs := List.map_append

section Numbers

variable (i : Nat)

mutual

/-- The numbers of the blocks are among the numbers of all nodes. -/
theorem Expr.placeIds_le (around : List LexicalScope) :
    ∀ e : Expr, (placeIds (e.places around)).count i ≤ e.ids.count i
  | ⟨_, _, form⟩ => Nat.le_trans (form.placeIds_le around) List.count_le_count_cons

theorem Form.placeIds_le (around : List LexicalScope) :
    ∀ f : Form, (placeIds (f.places around)).count i ≤ f.ids.count i
  | .literal _ | .read _ | .self | .defLib _ => Nat.le_refl _
  | .assign _ _ value => value.placeIds_le around
  | .call receiver _ _ arguments block => by
    have first := optionPlaceIds_le around receiver
    have second := listPlaceIds_le (assignInnermost (optionAssigns receiver) around) arguments
    have third := blockPlaceIds_le
      (assignInnermost (optionAssigns receiver ++ listAssigns arguments) around) block
    simp only [Form.places, Form.ids, placeIds_append, List.count_append]
    omega
  | .yield arguments => listPlaceIds_le around arguments
  | .return value | .break value => optionPlaceIds_le around value
  | .conditional _ condition consequent alternative => by
    have first := condition.placeIds_le around
    have second := listPlaceIds_le (assignInnermost condition.assigns around) consequent
    have third := bodyPlaceIds_le
      (assignInnermost (condition.assigns ++ listAssigns consequent) around) alternative
    simp only [Form.places, Form.ids, placeIds_append, List.count_append]
    omega
  | .while condition body => by
    have first := condition.placeIds_le around
    have second := listPlaceIds_le (assignInnermost condition.assigns around) body
    simp only [Form.places, Form.ids, placeIds_append, List.count_append]
    omega
  | .logical _ left right => by
    have first := left.placeIds_le around
    have second := right.placeIds_le (assignInnermost left.assigns around)
    simp only [Form.places, Form.ids, placeIds_append, List.count_append]
    omega
  | .not operand => operand.placeIds_le around
  | .defMethod m => m.placeIds_le
  | .defClass ⟨_, _, _, _, methods⟩ => methodsPlaceIds_le methods

theorem MethodDef.placeIds_le : ∀ m : MethodDef, (placeIds m.places).count i ≤ m.ids.count i
  | ⟨_, _, _, _, body⟩ => Nat.le_trans (listPlaceIds_le _ body) List.count_le_count_cons

theorem methodsPlaceIds_le :
    ∀ ms : List MethodDef, (placeIds (methodsPlaces ms)).count i ≤ (methodsIds ms).count i
  | [] => Nat.le_refl _
  | m :: ms => by
    have first := m.placeIds_le
    have rest := methodsPlaceIds_le ms
    simp only [methodsPlaces, methodsIds, placeIds_append, List.count_append]
    omega

theorem listPlaceIds_le (around : List LexicalScope) :
    ∀ es : List Expr, (placeIds (listPlaces around es)).count i ≤ (listIds es).count i
  | [] => Nat.le_refl _
  | e :: es => by
    have first := e.placeIds_le around
    have rest := listPlaceIds_le (assignInnermost e.assigns around) es
    simp only [listPlaces, listIds, placeIds_append, List.count_append]
    omega

theorem optionPlaceIds_le (around : List LexicalScope) :
    ∀ e : Option Expr, (placeIds (optionPlaces around e)).count i ≤ (optionIds e).count i
  | none => Nat.le_refl _
  | some e => e.placeIds_le around

theorem bodyPlaceIds_le (around : List LexicalScope) :
    ∀ es : Option (List Expr), (placeIds (bodyPlaces around es)).count i ≤ (bodyIds es).count i
  | none => Nat.le_refl _
  | some es => listPlaceIds_le around es

theorem blockPlaceIds_le (around : List LexicalScope) :
    ∀ b : Option Block, (placeIds (blockPlaces around b)).count i ≤ (blockIds b).count i
  | none => Nat.le_refl _
  | some ⟨id, span, parameters, body⟩ => by
    have inside := listPlaceIds_le
      (⟨some ⟨id, span, parameters, body⟩, parameters.map (·.name), []⟩ :: around) body
    simp only [blockPlaces, blockIds, placeIds, List.map_cons, List.count_cons]
    exact Nat.add_le_add_right inside _

end

end Numbers

theorem placeIds_nodup {bodies : List (List Expr)} (distinct : (listIds bodies.flatten).Nodup) :
    (placeIds (programPlaces bodies)).Nodup :=
  List.nodup_iff_count.2 fun i =>
    Nat.le_trans (listPlaceIds_le i _ _) (List.nodup_iff_count.1 distinct i)

/-- The blocks of a program with numbers of its own for all nodes are told apart by theirs. -/
theorem place_unique {bodies : List (List Expr)} (distinct : (listIds bodies.flatten).Nodup)
    {p q : BlockPlace} (first : p ∈ programPlaces bodies) (second : q ∈ programPlaces bodies)
    (same : p.block.id = q.block.id) : p = q :=
  List.inj_on_of_nodup_map (placeIds_nodup distinct) first second (congrArg NodeId.val same)

/-- Something with the given mentions stands in the innermost scope: a block whose place is known
and whose body mentions them too, or the body of a method, which has no scopes around it. -/
def Inside (all : List BlockPlace) (around : List LexicalScope) (mentions : List String) : Prop :=
  ∀ l outer, around = l :: outer → (l.block = none → outer = []) ∧
    ∀ b, l.block = some b →
      ⟨b, outer⟩ ∈ all ∧ l.parameters = b.names ∧ ∀ n ∈ mentions, n ∈ listMentions b.body

namespace Inside

variable {all : List BlockPlace} {around : List LexicalScope} {mentions : List String}

theorem mono {fewer : List String} (inside : Inside all around mentions)
    (subset : ∀ n ∈ fewer, n ∈ mentions) : Inside all around fewer := by
  intro l outer split
  obtain ⟨method, block⟩ := inside l outer split
  refine ⟨method, fun b found => ?_⟩
  obtain ⟨place, parameters, mentioned⟩ := block b found
  exact ⟨place, parameters, fun n member => mentioned n (subset n member)⟩

theorem after (inside : Inside all around mentions) (names : List String) :
    Inside all (assignInnermost names around) mentions := by
  intro l outer split
  cases around with
  | nil => cases split
  | cons k _ =>
    cases split
    exact inside k outer rfl

theorem ofBody (parameters mentions : List String) :
    Inside all [LexicalScope.ofBody parameters] mentions := by
  intro l outer split
  cases split
  exact ⟨fun _ => rfl, fun b found => by cases found⟩

theorem ofBlock {b : Block} (place : ⟨b, around⟩ ∈ all) :
    Inside all (LexicalScope.ofBlock b :: around) (listMentions b.body) := by
  intro l outer split
  cases split
  refine ⟨nofun, fun c found => ?_⟩
  cases found
  exact ⟨place, rfl, fun _ member => member⟩

end Inside

section Nesting

variable {all : List BlockPlace}

mutual

/-- Every block in an expression stands inside the blocks around it. -/
theorem Expr.places_inside {around : List LexicalScope} : ∀ e : Expr,
    (∀ p ∈ e.places around, p ∈ all) → Inside all around e.mentions →
      ∀ p ∈ e.places around, Inside all p.around (blockMentions (some p.block))
  | ⟨_, _, form⟩ => form.places_inside

theorem Form.places_inside {around : List LexicalScope} : ∀ f : Form,
    (∀ p ∈ f.places around, p ∈ all) → Inside all around f.mentions →
      ∀ p ∈ f.places around, Inside all p.around (blockMentions (some p.block))
  | .literal _, _, _ | .read _, _, _ | .self, _, _ | .defLib _, _, _ => fun _ member => nomatch member
  | .assign _ _ value, known, inside =>
    value.places_inside known (inside.mono fun _ => List.mem_append_left _)
  | .call receiver _ _ arguments block, known, inside => by
    simp only [Form.places, Form.mentions, List.mem_append] at known inside ⊢
    intro p member
    rcases member with (member | member) | member
    · exact optionPlaces_inside receiver (fun q found => known q (.inl (.inl found)))
        (inside.mono fun n found => by simp [found]) p member
    · exact listPlaces_inside arguments (fun q found => known q (.inl (.inr found)))
        ((inside.mono fun n found => by simp [found]).after _) p member
    · exact blockPlaces_inside block (fun q found => known q (.inr found))
        ((inside.mono fun n found => by simp [found]).after _) p member
  | .yield arguments, known, inside => listPlaces_inside arguments known inside
  | .return value, known, inside | .break value, known, inside =>
    optionPlaces_inside value known inside
  | .conditional _ condition consequent alternative, known, inside => by
    simp only [Form.places, Form.mentions, List.mem_append] at known inside ⊢
    intro p member
    rcases member with (member | member) | member
    · exact condition.places_inside (fun q found => known q (.inl (.inl found)))
        (inside.mono fun n found => by simp [found]) p member
    · exact listPlaces_inside consequent (fun q found => known q (.inl (.inr found)))
        ((inside.mono fun n found => by simp [found]).after _) p member
    · exact bodyPlaces_inside alternative (fun q found => known q (.inr found))
        ((inside.mono fun n found => by simp [found]).after _) p member
  | .while condition body, known, inside => by
    simp only [Form.places, Form.mentions, List.mem_append] at known inside ⊢
    intro p member
    rcases member with member | member
    · exact condition.places_inside (fun q found => known q (.inl found))
        (inside.mono fun n found => by simp [found]) p member
    · exact listPlaces_inside body (fun q found => known q (.inr found))
        ((inside.mono fun n found => by simp [found]).after _) p member
  | .logical _ left right, known, inside => by
    simp only [Form.places, Form.mentions, List.mem_append] at known inside ⊢
    intro p member
    rcases member with member | member
    · exact left.places_inside (fun q found => known q (.inl found))
        (inside.mono fun n found => by simp [found]) p member
    · exact right.places_inside (fun q found => known q (.inr found))
        ((inside.mono fun n found => by simp [found]).after _) p member
  | .not operand, known, inside => operand.places_inside known inside
  | .defMethod m, known, _ => m.places_inside known
  | .defClass ⟨_, _, _, _, methods⟩, known, _ => methodsPlaces_inside methods known

theorem MethodDef.places_inside : ∀ m : MethodDef, (∀ p ∈ m.places, p ∈ all) →
    ∀ p ∈ m.places, Inside all p.around (blockMentions (some p.block))
  | ⟨_, _, _, _, body⟩, known => listPlaces_inside body known (Inside.ofBody _ _)

theorem methodsPlaces_inside : ∀ ms : List MethodDef, (∀ p ∈ methodsPlaces ms, p ∈ all) →
    ∀ p ∈ methodsPlaces ms, Inside all p.around (blockMentions (some p.block))
  | [], _ => fun _ member => nomatch member
  | m :: ms, known => by
    simp only [methodsPlaces, List.mem_append] at known ⊢
    intro p member
    rcases member with member | member
    · exact m.places_inside (fun q found => known q (.inl found)) p member
    · exact methodsPlaces_inside ms (fun q found => known q (.inr found)) p member

theorem listPlaces_inside {around : List LexicalScope} : ∀ es : List Expr,
    (∀ p ∈ listPlaces around es, p ∈ all) → Inside all around (listMentions es) →
      ∀ p ∈ listPlaces around es, Inside all p.around (blockMentions (some p.block))
  | [], _, _ => fun _ member => nomatch member
  | e :: es, known, inside => by
    simp only [listPlaces, listMentions, List.mem_append] at known inside ⊢
    intro p member
    rcases member with member | member
    · exact e.places_inside (fun q found => known q (.inl found))
        (inside.mono fun n found => by simp [found]) p member
    · exact listPlaces_inside es (fun q found => known q (.inr found))
        ((inside.mono fun n found => by simp [found]).after _) p member

theorem optionPlaces_inside {around : List LexicalScope} : ∀ e : Option Expr,
    (∀ p ∈ optionPlaces around e, p ∈ all) → Inside all around (optionMentions e) →
      ∀ p ∈ optionPlaces around e, Inside all p.around (blockMentions (some p.block))
  | none, _, _ => fun _ member => nomatch member
  | some e, known, inside => e.places_inside known inside

theorem bodyPlaces_inside {around : List LexicalScope} : ∀ es : Option (List Expr),
    (∀ p ∈ bodyPlaces around es, p ∈ all) → Inside all around (bodyMentions es) →
      ∀ p ∈ bodyPlaces around es, Inside all p.around (blockMentions (some p.block))
  | none, _, _ => fun _ member => nomatch member
  | some es, known, inside => listPlaces_inside es known inside

theorem blockPlaces_inside {around : List LexicalScope} : ∀ b : Option Block,
    (∀ p ∈ blockPlaces around b, p ∈ all) → Inside all around (blockMentions b) →
      ∀ p ∈ blockPlaces around b, Inside all p.around (blockMentions (some p.block))
  | none, _, _ => fun _ member => nomatch member
  | some ⟨id, span, parameters, body⟩, known, inside => by
    simp only [blockPlaces, List.mem_cons] at known ⊢
    intro p member
    rcases member with rfl | member
    · exact inside
    · exact listPlaces_inside body (fun q found => known q (.inr found))
        (Inside.ofBlock (known _ (.inl rfl))) p member

end

end Nesting

theorem programPlaces_inside {bodies : List (List Expr)} {p : BlockPlace}
    (place : p ∈ programPlaces bodies) :
    Inside (programPlaces bodies) p.around (blockMentions (some p.block)) :=
  listPlaces_inside bodies.flatten (fun _ => id) (Inside.ofBody _ _) p place

end TypedBlocks

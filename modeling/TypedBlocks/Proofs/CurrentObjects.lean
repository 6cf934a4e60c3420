import TypedBlocks.Proofs.TypeSorts

/-!
# Current object types

What inference knows of an object is a snapshot of the layout of its class, and layouts change while
it goes on. Nothing old is left in a compiled program: since the last change of layouts all tables
have been made anew, from the layouts that the program has.
-/
namespace TypedBlocks

open Inference (Entries Closed ReducedLayouts)

/-- The function is declared to return objects of a class. -/
def ForeignEntry.returnsObject (f : ForeignEntry) : Bool :=
  match f.resultTy? with
  | some (.object _ _) => true
  | _ => false

section Layouts

variable {L : List (String × List (String × Ty))}

/-- A simple type, or the type that the layouts give the objects of a class. -/
def Ty.CurrentMember (L : List (String × List (String × Ty))) (m : Ty) : Prop :=
  (∃ s, m = .simple s) ∨ ∃ c, m = .object c ((L.lookup c).getD [])

/-- All members of the type are current. -/
def Ty.Current (L : List (String × List (String × Ty))) : Ty → Prop := Ty.Over (Ty.CurrentMember L)

/-- The layouts of known tables. -/
abbrev KnownLayouts (L : List (String × List (String × Ty))) : Prop :=
  Entries Vocabulary.all.classes (Ty.VarsKnown .all) L

theorem KnownLayouts.reduced (known : KnownLayouts L) : ReducedLayouts L :=
  fun e member =>
    have vars : Ty.VarsKnown .all e.2 := (known.each e member).2
    ⟨vars.nodup, fun v inside => (vars.each v inside).2.reduced⟩

theorem KnownLayouts.vars (known : KnownLayouts L) (c : String) :
    Ty.VarsKnown .all ((L.lookup c).getD []) := by
  cases found : L.lookup c with
  | none => exact Entries.nil
  | some vars => exact known.lookup found

theorem currentMember_flat (known : KnownLayouts L) : Ty.Flat (Ty.CurrentMember L) := by
  rintro m (⟨s, rfl⟩ | ⟨c, rfl⟩)
  · exact ⟨trivial, .simple s⟩
  · exact Ty.knownMember_flat (V := .all) _ (.inr ⟨c, _, trivial, known.vars c, rfl⟩)

/-- Inference makes objects from the present layouts, and only a declared result of a library
function could bring in others. -/
theorem current_closed {cx : Inference.Setting} (known : KnownLayouts L)
    (foreign : ∀ f ∈ cx.definitions.foreigns, f.returnsObject = false) :
    Closed L (Ty.Current L) cx where
  simple s := .single (currentMember_flat known) (.inl ⟨s, rfl⟩)
  join _ _ := .join (currentMember_flat known)
  member _ current m inside := .single (currentMember_flat known) (current.members m inside)
  object ts layouts c :=
    .single (currentMember_flat known) (.inr ⟨c, by rw [Inference.Tables.objectTy, layouts]⟩)
  instanceVar ts layouts c name := by
    have object (c : String) : Ty.Current L (ts.objectTy c) :=
      .single (currentMember_flat known) (.inr ⟨c, by rw [Inference.Tables.objectTy, layouts]⟩)
    rw [Inference.instanceTy]
    split
    · rename_i t found
      obtain ⟨vars, layout, var⟩ := Option.bind_eq_some_iff.1 found
      rw [layouts] at layout
      have vars' : Ty.VarsKnown .all vars := known.lookup layout
      refine Ty.Over.mapMembers (currentMember_flat known) (fun m member => ?_) (vars'.lookup var)
      rcases member with ⟨s, -, rfl⟩ | ⟨c, -, rfl⟩
      · exact .single (currentMember_flat known) (.inl ⟨s, rfl⟩)
      · exact object c
    · exact .single (currentMember_flat known) (.inl ⟨.nil, rfl⟩)
  foreign lib name f t found result := by
    have plain := foreign f (List.mem_of_find?_eq_some found)
    have simple (s : SimpleTy) : Ty.Current L (.simple s) :=
      .single (currentMember_flat known) (.inl ⟨s, rfl⟩)
    rw [ForeignEntry.returnsObject, result] at plain
    rw [ForeignEntry.resultTy?] at result
    split at result <;> cases result <;> first | exact simple _ | cases plain

end Layouts

namespace Typed.Program

/-- The program mentions the type somewhere outside of its layouts. -/
def Mentions (p : Program) (t : Ty) : Prop :=
  (∃ m ∈ p.allMethods, t ∈ m.types) ∨ ∃ e, p.Within e ∧ t ∈ e.types

/-- The type of the objects of a class as the layouts have it; one without an entry has no variables. -/
def objectTy (p : Program) (c : String) : Ty :=
  ((p.layouts.find? (·.className == c)).map Layout.toTy).getD (Ty.instanceOf c)

theorem objectTy_eq (p : Program) (c : String) : p.objectTy c =
    .object c (((p.layouts.find? (·.className == c)).map (·.vars)).getD []) := by
  rw [objectTy]
  cases found : p.layouts.find? (·.className == c) with
  | none => rfl
  | some l =>
    have same : l.className = c := by simpa using List.find?_some found
    rw [Option.map_some, Option.map_some, Option.getD_some, Option.getD_some, Layout.toTy, same]

end Typed.Program

/-- No two members of the type are objects of one class. -/
def Ty.OncePerClass (t : Ty) : Prop :=
  t.members.Pairwise fun m n => ∀ c vs ws, m = .object c vs → n ≠ .object c ws

/-- A sort that has one type for the objects of a class has no type with two of them as members. -/
theorem Ty.Over.oncePerClass {P : Ty → Prop} (flat : Ty.Flat P)
    (single : ∀ c vs ws, P (.object c vs) → P (.object c ws) → vs = ws) {t : Ty} (each : t.Over P) :
    t.OncePerClass := by
  refine each.reduced.different.imp_of_mem fun {m n} first second different c vs ws here there => ?_
  have sort := each.members m first
  have sort' := each.members n second
  subst here there
  exact different (single c vs ws sort sort' ▸ (flat _ sort).2.refl)

theorem Ty.Current.oncePerClass {L : List (String × List (String × Ty))} (known : KnownLayouts L)
    {t : Ty} (current : t.Current L) : t.OncePerClass := by
  refine Ty.Over.oncePerClass (currentMember_flat known) ?_ current
  rintro c vs ws (⟨s, same⟩ | ⟨d, same⟩) (⟨s', same'⟩ | ⟨d', same'⟩)
  all_goals cases same <;> cases same' <;> rfl

theorem Ty.Bare.oncePerClass {V : Vocabulary} {t : Ty} (bare : t.Bare V) : t.OncePerClass := by
  refine Ty.Over.oncePerClass Ty.bareMember_flat ?_ bare
  rintro c vs ws (⟨s, -, same⟩ | ⟨d, -, same⟩) (⟨s', -, same'⟩ | ⟨d', -, same'⟩)
  all_goals cases same <;> cases same' <;> rfl

namespace Compilation

open Inference

/-- A library function of the program is declared to return objects. -/
def textReturnsObjects (options : Options) (text : String) (ds : Diagnostics) : Bool :=
  match (Compile.readWithPrelude options text).run.run ds with
  | (.ok modules, _) =>
    match Definitions.ofBodies (modules.map (·.body)) with
    | .ok definitions => definitions.foreigns.any (·.returnsObject)
    | .error _ => false
  | _ => false

/-- A compiled program without such functions is made by a pass that meets current types alone. -/
theorem ofBodies_current {limits : Limits} {bodies : List (List Expr)} {c : Compilation}
    (compiled : ofBodies limits bodies = .ok c) {definitions : Definitions}
    (collected : Definitions.ofBodies bodies = .ok definitions)
    (foreign : ∀ f ∈ definitions.foreigns, f.returnsObject = false) :
    ∃ ts body s, KnownLayouts ts.layouts ∧
      c.program = madeProgram ⟨definitions, c.exits, c.captures, limits⟩ body s ∧ s.tables = ts ∧
      s.OfSort ts.layouts (Ty.Current ts.layouts) ∧ body.OfSort (Ty.Current ts.layouts) := by
  obtain ⟨definitions', collected', -, -, inferred⟩ := ofBodies_inferred compiled
  cases collected.symm.trans collected'
  have pass {ts q s} (known : Tables.Known ⟨definitions, c.exits, c.captures, limits⟩ .all ts)
      (run : elaborateProgram ⟨definitions, c.exits, c.captures, limits⟩ ampleFuel bodies.flatten
        (PassState.start ts) = some (q, s)) :=
    pass_known (Vocabulary.all_covers _) (Definitions.ofBodies_consistent collected)
      (fun _ _ => trivial) known run
  obtain ⟨ts, s, ⟨known, sorted⟩, -, run, same, -⟩ := iterate_kept
    (P := fun ts => Tables.Known ⟨definitions, c.exits, c.captures, limits⟩ .all ts ∧
      ts.OfSort (Ty.Current ts.layouts))
    ⟨empty_known, ⟨nofun, nofun, nofun, nofun⟩⟩
    (fun ts q s before run same => by
      have ⟨after, grows⟩ := pass before.1 run
      have layouts := grows.layouts_eq before.1.reduced same
      have closed : Closed ts.layouts (Ty.Current ts.layouts)
          ⟨definitions, c.exits, c.captures, limits⟩ := current_closed before.1.layouts foreign
      obtain ⟨body, runBody, -⟩ := elaborateProgram_steps run
      have kept := pass_ofSort (KnownLayouts.reduced before.1.layouts) closed rfl before.2 runBody
        layouts
      exact ⟨after.tables, layouts ▸ kept.1.tables⟩)
    (fun ts q s before run =>
      ⟨(pass before.1 run).1.tables.layoutsOnly, ⟨nofun, nofun, nofun, nofun⟩⟩)
    inferred
  obtain ⟨after, grows⟩ := pass known run
  obtain ⟨body, runBody, made⟩ := elaborateProgram_steps run
  have unchanged := grows.eq_of_same known.reduced same
  have closed : Closed ts.layouts (Ty.Current ts.layouts)
      ⟨definitions, c.exits, c.captures, limits⟩ := current_closed known.layouts foreign
  have ⟨sorted', main⟩ := pass_ofSort (KnownLayouts.reduced known.layouts) closed rfl sorted runBody
    (congrArg Tables.layouts unchanged)
  exact ⟨ts, body, s, known.layouts, made, unchanged, sorted', main⟩

/-- A compiled program holds no old snapshots of objects, unless a library function is declared to
return objects: every type that it mentions is made from simple types and from the object types that
its layouts have now, at most one for each class. In the layouts themselves objects are nothing but
names of classes. -/
theorem compiled_objects_current {options : Options} {text : String} {ds ds' : Diagnostics}
    {c : Compilation} (compiled : ofText options text ds = (.ok c, ds'))
    (plain : textReturnsObjects options text ds = false) :
    (∀ t, c.program.Mentions t →
      (∀ m ∈ t.members, (∃ s, m = .simple s) ∨ ∃ d, m = c.program.objectTy d) ∧ t.OncePerClass) ∧
    ∀ l ∈ c.program.layouts, ∀ v ∈ l.vars,
      (∀ m ∈ v.2.members, (∃ s, m = .simple s) ∨ ∃ d, m = .instanceOf d) ∧ v.2.OncePerClass := by
  obtain ⟨modules, ds₁, read, compiled⟩ := ofText_steps compiled
  obtain ⟨definitions, collected, -⟩ := ofBodies_inferred compiled
  have foreign : ∀ f ∈ definitions.foreigns, f.returnsObject = false := by
    simpa [textReturnsObjects, read, collected] using plain
  obtain ⟨ts, body, s, known, made, tables, sorted, main⟩ :=
    ofBodies_current compiled collected foreign
  have layouts : c.program.layouts = sortedLayouts ts := by rw [made, madeProgram, tables]
  constructor
  · intro t mentioned
    have current : t.Current ts.layouts := by
      have closed : Closed ts.layouts (Ty.Current ts.layouts)
          ⟨definitions, c.exits, c.captures, options.limits⟩ := current_closed known foreign
      have each := madeProgram_ofSort closed sorted main
      rw [← made] at each
      rcases mentioned with ⟨m, member, type⟩ | ⟨e, ⟨m, member, inside⟩, type⟩
      · exact (each m member).1 t type
      · exact (each m member).2 e inside t type
    refine ⟨fun m member => (current.members m member).imp_right ?_, current.oncePerClass known⟩
    rintro ⟨d, rfl⟩
    refine ⟨d, ?_⟩
    rw [Typed.Program.objectTy_eq, layouts, sortedLayouts_find known.nodup]
  · intro l member v inside
    rw [layouts, sortedLayouts, (List.mergeSort_perm _ _).mem_iff, List.mem_map] at member
    obtain ⟨e, listed, rfl⟩ := member
    have vars : Ty.VarsKnown .all e.2 := (known.each e listed).2
    have bare := (vars.each v inside).2
    refine ⟨fun m member => ?_, bare.oncePerClass⟩
    rcases bare.members m member with ⟨s, -, same⟩ | ⟨d, -, same⟩
    · exact .inl ⟨s, same⟩
    · exact .inr ⟨d, same⟩

/-- A node comes to hold nodes and numbers, while older nodes stand in a global and are passed on. -/
def growingText : String :=
  "class Node\n  def initialize(v)\n    @value = v\n  end\n  def link(n)\n    @next = n\n    @next\n" ++
    "  end\n  def value\n    @value\n  end\nend\n" ++
    "$first = Node.new(1)\nlast = Node.new(2.5)\n$first = last.link($first) if last.value\n" ++
    "$first.link(last)\n"

theorem growingText_objects_current : ∃ c ds,
    ofText ⟨false, Limits.standard⟩ growingText Diagnostics.empty = (.ok c, ds) ∧
      textReturnsObjects ⟨false, Limits.standard⟩ growingText Diagnostics.empty = false ∧
      ∀ t, c.program.Mentions t → t.OncePerClass := by
  have plain : textReturnsObjects ⟨false, Limits.standard⟩ growingText Diagnostics.empty = false := by
    decide +kernel
  obtain ⟨c, ds, result⟩ := exists_compilation ⟨false, Limits.standard⟩ growingText (by decide +kernel)
  refine ⟨c, ds, result, plain, fun t mentioned => ?_⟩
  exact ((compiled_objects_current result plain).1 t mentioned).2

end Compilation

end TypedBlocks

import TypedBlocks.Proofs.CountingMethods
import TypedBlocks.Proofs.Inheritance
import TypedBlocks.Proofs.UntypedSlots

/-!
# The methods of the prelude

The prelude is the first module of every program that has it, so its methods `times` and `upto` are the
first two of the program. They answer for integers, unless the program defines one of them anew.
-/
namespace TypedBlocks

/-- A method of the prelude: it counts from a start on, as long as an operator holds for the bound. -/
structure PreludeLoop where
  name : String
  parameters : List String
  order : String
  operation : Primitive
  start : Operand
  bound : Operand
  deriving DecidableEq

namespace PreludeLoop

def times : PreludeLoop := ⟨"times", [], "<", .lt, .integer 0, .self⟩

def upto : PreludeLoop := ⟨"upto", ["n"], "<=", .le, .self, .read "n"⟩

/-- The methods of the prelude in their order. -/
def all : List PreludeLoop := [times, upto]

/-- The operators that the methods send. -/
def operators : List String := ["<", "<=", "+"]

def fullName (k : PreludeLoop) : String := "Int#" ++ k.name

/-- Value of an operand where the method is called with the integers. -/
def value (k : PreludeLoop) (receiver : Int64) (arguments : List Int64) : Operand → Int64
  | .integer n => n
  | .read name => ((k.parameters.zip arguments).lookup name).getD 0
  | .self => receiver

/-- The definition is that of the loop; its parameters take arguments of all types. -/
def describes (k : PreludeLoop) (m : MethodDef) : Bool :=
  m.name == k.name && m.parameters.map (·.name) == k.parameters &&
    m.parameters.all (·.restriction.isNone) && m.counts k.order k.start k.bound

end PreludeLoop

/-- The module opens the class of the integers and defines the loops in it. -/
def Module.definesLoops (m : Module) : Bool :=
  match m.body with
  | [⟨_, _, .defClass c⟩] =>
    c.name == "Int" && c.methods.length == PreludeLoop.all.length &&
      (PreludeLoop.all.zip c.methods).all fun (k, m) => k.describes m
  | _ => false

theorem preludeText_definesLoops :
    (Module.read ⟨0⟩ preludeText).toOption.any (·.1.definesLoops) = true := by
  decide +kernel

namespace Compile

open Compilation (run_bind_ok)

/-- A program that has the prelude starts with its loops. -/
theorem readWithPrelude_definesLoops {options : Compilation.Options} {text : String}
    {ds ds' : Diagnostics} {modules : List Module} (prelude : options.includePrelude = true)
    (reads : (readWithPrelude options text).run.run ds = (.ok modules, ds')) :
    ∃ library program, modules = [library, program] ∧ library.definesLoops = true := by
  unfold readWithPrelude at reads
  rw [if_pos prelude] at reads
  obtain ⟨⟨library, next⟩, ds₁, first, reads⟩ := run_bind_ok reads
  obtain ⟨⟨program, _⟩, ds₂, second, reads⟩ := run_bind_ok reads
  cases reads
  have loops := preludeText_definesLoops
  rw [read_module first] at loops
  exact ⟨library, program, rfl, loops⟩

end Compile

namespace Definitions

variable {d : Definitions} {c : String} {id : MethodId} {m : MethodEntry} {k : PreludeLoop} {i : Nat}

section Tables

theorem mem_methodsOf : m ∈ d.methodsOf c ↔
    ∃ entry id, d.class? c = some entry ∧ id ∈ entry.methods ∧ d.method? id = some m := by
  rw [methodsOf]
  cases d.class? c <;> simp [List.mem_filterMap]

/-- The methods of a class are entries that the class owns. -/
theorem Consistent.methodsOf_owned (consistent : d.Consistent) (member : m ∈ d.methodsOf c) :
    d.method? m.id = some m ∧ m.owner = some c := by
  obtain ⟨entry, id, found, listed, there⟩ := mem_methodsOf.1 member
  obtain ⟨m', same, owned⟩ := consistent.owned entry (List.mem_of_find?_eq_some found) id listed
  obtain rfl := Option.some.inj (there.symm.trans same)
  exact ⟨consistent.method?_id there ▸ there, owned.trans (congrArg some (class?_name found))⟩

/-- A method stays with its class, whatever is defined later. -/
theorem mem_enterMethod (owner : Option String) (n : MethodDef) (member : m ∈ d.methodsOf c) :
    m ∈ (d.enterMethod owner n).methodsOf c := by
  obtain ⟨entry, id, found, listed, there⟩ := mem_methodsOf.1 member
  refine mem_methodsOf.2 ⟨_, id, by rw [enterMethod_class?, found]; rfl, ?_,
    enterMethod_method? owner n there⟩
  dsimp only
  split
  · exact List.mem_append_left _ listed
  · exact listed

theorem mem_enterMethods (owner : Option String) (ms : List MethodDef) (member : m ∈ d.methodsOf c) :
    m ∈ (ms.foldl (fun d m => d.enterMethod owner m) d).methodsOf c := by
  induction ms generalizing d with
  | nil => exact member
  | cons n ms ih => exact ih (mem_enterMethod owner n member)

theorem mem_enterStatement (e : Expr) (member : m ∈ d.methodsOf c) :
    m ∈ (d.enterStatement e).methodsOf c := by
  rw [enterStatement]
  split
  · exact mem_enterMethod none _ member
  · rename_i opened form
    refine mem_enterMethods _ _ ?_
    rw [openClass]
    split
    · exact member
    · obtain ⟨entry, id, found, listed, there⟩ := mem_methodsOf.1 member
      refine mem_methodsOf.2 ⟨entry, id, ?_, listed, there⟩
      rw [class?] at found ⊢
      rw [List.find?_append, found, Option.some_or]
  all_goals exact member

theorem mem_enterStatements (es : List Expr) (member : m ∈ d.methodsOf c) :
    m ∈ (es.foldl enterStatement d).methodsOf c := by
  induction es generalizing d with
  | nil => exact member
  | cons e es ih => exact ih (mem_enterStatement e member)

/-- Methods are numbered in the order in which they are entered. -/
theorem mem_enterMethods_new {ms : List MethodDef} {n : MethodDef} (known : d.isClass c = true)
    (found : ms[i]? = some n) :
    ⟨⟨d.methods.size + i⟩, some c, n, n.yields⟩ ∈
      (ms.foldl (fun d m => d.enterMethod (some c) m) d).methodsOf c := by
  induction ms generalizing d i with
  | nil => cases found
  | cons m ms ih =>
    cases i with
    | zero =>
      obtain rfl := Option.some.inj found
      obtain ⟨entry, there⟩ := Option.isSome_iff_exists.1 known
      refine mem_enterMethods _ ms (mem_methodsOf.2 ⟨_, _, by rw [enterMethod_class?, there]; rfl, ?_,
        enterMethod_new d (some c) m⟩)
      simp [class?_name there]
    | succ i =>
      have size : (d.enterMethod (some c) m).methods.size + i = d.methods.size + (i + 1) := by
        simp only [enterMethod, Array.size_push]
        omega
      rw [← size]
      exact ih (by rwa [isClass_eq, enterMethod_heading?, ← isClass_eq]) found

end Tables

/-- The loops of the prelude are the first methods, and methods of the integers. -/
def HasLoops (d : Definitions) : Prop :=
  ∀ i k, PreludeLoop.all[i]? = some k →
    ∃ m ∈ d.methodsOf "Int", m.id = ⟨i⟩ ∧ k.describes m.definition = true

/-- The program defines neither the loops nor the operators that they use anew. -/
def KeepsCounting (d : Definitions) : Prop :=
  (∀ m ∈ d.methods.toList, m.fullName ∈ PreludeLoop.all.map PreludeLoop.fullName →
      m.id.val < PreludeLoop.all.length) ∧
    ∀ name ∈ PreludeLoop.operators, d.Spares name

instance (d : Definitions) : Decidable d.KeepsCounting :=
  inferInstanceAs (Decidable (_ ∧ _))

theorem ofBodies_hasLoops {library : Module} {bodies : List (List Expr)}
    (loops : library.definesLoops = true) (collected : ofBodies (library.body :: bodies) = .ok d) :
    d.HasLoops := by
  intro i k listed
  obtain ⟨rfl, -⟩ := ofBodies_steps collected
  unfold Module.definesLoops at loops
  split at loops
  · rename_i id span c body
    simp only [Bool.and_eq_true, beq_iff_eq] at loops
    obtain ⟨⟨owner, size⟩, each⟩ := loops
    obtain ⟨m, found⟩ : ∃ m, c.methods[i]? = some m :=
      ⟨_, List.getElem?_eq_getElem (size ▸ (List.getElem?_eq_some_iff.1 listed).1)⟩
    have known : builtin.isClass c.name = true := by rw [owner]; decide
    refine ⟨⟨⟨builtin.methods.size + i⟩, some c.name, m, m.yields⟩, ?_, congrArg _ (Nat.zero_add i),
      List.all_eq_true.1 each (k, m) (List.mem_iff_getElem?.2
        ⟨i, List.getElem?_zip_eq_some.2 ⟨listed, found⟩⟩)⟩
    rw [List.flatten_cons, List.foldl_append, body, ← owner]
    refine mem_enterStatements _ ?_
    change _ ∈ (c.methods.foldl _ (builtin.openClass c)).methodsOf c.name
    rw [openClass, if_pos known]
    exact mem_enterMethods_new known found
  · cases loops

namespace HasLoops

variable (loops : d.HasLoops) (consistent : d.Consistent) (listed : PreludeLoop.all[i]? = some k)

include loops consistent listed

/-- Where the program keeps the loops, only they have their names. -/
theorem own (keeps : d.KeepsCounting) (found : d.method? id = some m) (named : m.fullName = k.fullName) :
    id = ⟨i⟩ ∧ k.describes m.definition = true := by
  have within : k.fullName ∈ PreludeLoop.all.map PreludeLoop.fullName :=
    List.mem_map_of_mem (List.mem_of_getElem? listed)
  have low : id.val < PreludeLoop.all.length := by
    rw [← consistent.method?_id found]
    exact keeps.1 m (Array.mem_toList_iff.2 (Array.mem_of_getElem? found)) (named ▸ within)
  obtain ⟨m', member, number, describes⟩ := loops id.val _ (List.getElem?_eq_getElem low)
  obtain ⟨found', owned⟩ := consistent.methodsOf_owned member
  rw [number] at found'
  obtain rfl := Option.some.inj (found.symm.trans found')
  have name : PreludeLoop.all[id.val].fullName = k.fullName := by
    rw [← named, MethodEntry.fullName, owned]
    simp only [PreludeLoop.describes, Bool.and_eq_true, beq_iff_eq] at describes
    rw [PreludeLoop.fullName, ← describes.1.1.1]
    rfl
  have distinct : (PreludeLoop.all.map PreludeLoop.fullName).Nodup := by decide
  have same : id.val = i := (List.getElem?_inj (by simpa using low) distinct).1
    (by simp [List.getElem?_map, listed, name, List.getElem?_eq_getElem low])
  obtain rfl : PreludeLoop.all[id.val] = k := by
    rw [← same, List.getElem?_eq_getElem low] at listed
    exact Option.some.inj listed
  exact ⟨congrArg MethodId.mk same, describes⟩

/-- A loop answers for integers. -/
theorem dispatch? (known : d.isClass "Int" = true) (keeps : d.KeepsCounting) (block self : Bool) :
    d.dispatch? ⟨Ty.int, k.name, k.parameters.map fun _ => Ty.int, block, self⟩ =
      some (.method ⟨i⟩) := by
  obtain ⟨m, member, -, describes⟩ := loops i k listed
  simp only [PreludeLoop.describes, Bool.and_eq_true, beq_iff_eq, List.all_eq_true] at describes
  obtain ⟨⟨⟨name, names⟩, unrestricted⟩, -⟩ := describes
  let msg : Message := ⟨Ty.int, k.name, k.parameters.map fun _ => Ty.int, block, self⟩
  have applicable : d.isApplicable msg m = true := by
    simp only [isApplicable, Bool.and_eq_true, beq_iff_eq, accepts, List.all_eq_true]
    refine ⟨⟨name, ?_⟩, fun pair listed => ?_⟩
    · simp [msg, MethodEntry.arity, MethodEntry.parameters, ← names]
    · have free := unrestricted pair.1 (List.of_mem_zip listed).1
      rw [Option.isNone_iff_eq_none] at free
      simp [acceptsArgument, restriction?, free]
  obtain ⟨id, chosen⟩ := exists_choose? member applicable
  obtain ⟨n, listed', rfl, answers⟩ := choose?_mem chosen
  simp only [isApplicable, Bool.and_eq_true, beq_iff_eq] at answers
  obtain ⟨found, owned⟩ := consistent.methodsOf_owned listed'
  have named : n.fullName = k.fullName := by
    rw [MethodEntry.fullName, owned, answers.1.1]
    rfl
  obtain ⟨rest, -, start, -⟩ := ancestors_walked known
  have first : d.methodInChain? msg = some n.id := by
    change (d.ancestors "Int").findSome? (fun e => d.choose? msg (d.methodsOf e)) = some n.id
    rw [start, List.findSome?_cons, chosen]
  rw [← (loops.own consistent listed keeps found named).1]
  have receiver : msg.receiver.className? = some "Int" := rfl
  exact dispatch?_of_methodInChain? receiver (by decide) first

end HasLoops

end Definitions

end TypedBlocks

import TypedBlocks.Ty.Basic

/-!
# Completions

How a sequence of expressions can end: normally with a value, by a return from a method frame, or by
a break out of a call or a loop. A `Completions` holds one merged type for each way. Alternatives
are joined; what follows a sequence counts only if the sequence can end normally.
-/
namespace TypedBlocks

/-- An activation of a method body, the target of returns. -/
structure FrameId where
  val : Nat
  deriving DecidableEq, Repr, Inhabited

/-- A call whose callee is expanded in place, the target of breaks from its block. -/
structure SiteId where
  val : Nat
  deriving DecidableEq, Repr, Inhabited

structure LoopId where
  val : Nat
  deriving DecidableEq, Repr, Inhabited

inductive BreakTarget where
  | call (site : SiteId)
  | loop (id : LoopId)
  deriving DecidableEq, Repr

/-- One way to end, with the type of the value carried along. -/
inductive Completion where
  | normal (type : Ty)
  | return (frame : FrameId) (type : Ty)
  | break (target : BreakTarget) (type : Ty)

structure Completions where
  normal : Option Ty
  returns : List (FrameId × Ty)
  breaks : List (BreakTarget × Ty)

/-- Add a type at a key: joined to the entry of the key, or as a new entry behind all others. -/
def extendAt {α : Type} [BEq α] (key : α) (t : Ty) : List (α × Ty) → List (α × Ty)
  | [] => [(key, t)]
  | (k, u) :: entries =>
    if k == key then (k, u.join t) :: entries else (k, u) :: extendAt key t entries

/-- The type of a key, if it has one, and the list without that entry. -/
def takeAt {α : Type} [BEq α] (key : α) (entries : List (α × Ty)) : Option Ty × List (α × Ty) :=
  match entries.findIdx? (·.1 == key) with
  | some i => (entries[i]?.map (·.2), entries.eraseIdx i)
  | none => (none, entries)

/-- Both lists bind the same keys to the same types in the same order. -/
def sameEntries {α : Type} [BEq α] : List (α × Ty) → List (α × Ty) → Bool
  | [], [] => true
  | (k, t) :: es, (l, u) :: fs => k == l && t == u && sameEntries es fs
  | _, _ => false

namespace Completions

/-- No end is reachable. -/
def never : Completions := ⟨none, [], []⟩

instance : Inhabited Completions := ⟨never⟩

def ofNormal (t : Ty) : Completions := ⟨some t, [], []⟩

def ofReturn (frame : FrameId) (t : Ty) : Completions := ⟨none, [(frame, t)], []⟩

def ofBreak (target : BreakTarget) (t : Ty) : Completions := ⟨none, [], [(target, t)]⟩

def joinNormal (c : Completions) (t : Option Ty) : Completions :=
  { c with normal := Ty.mergeOption c.normal t }

def add (c : Completions) : Completion → Completions
  | .normal t => c.joinNormal (some t)
  | .return frame t => { c with returns := extendAt frame t c.returns }
  | .break target t => { c with breaks := extendAt target t c.breaks }

/-- All ways to end: the normal one, then returns, then breaks. -/
def toList (c : Completions) : List Completion :=
  (c.normal.toList.map .normal) ++ c.returns.map (fun (f, t) => .return f t) ++
    c.breaks.map (fun (b, t) => .break b t)

/-- The ends of either of two alternatives. -/
def join (c d : Completions) : Completions := d.toList.foldl add c

def dropNormal (c : Completions) : Completions := { c with normal := none }

def fallsThrough (c : Completions) : Bool := c.normal.isSome

def isNever (c : Completions) : Bool := c.normal.isNone && c.returns.isEmpty && c.breaks.isEmpty

/-- The ends of one sequence followed by another, which runs only where the first falls through. -/
def andThen (c next : Completions) : Completions :=
  if c.fallsThrough then c.dropNormal.join next else c

def returnTy? (c : Completions) (frame : FrameId) : Option Ty := c.returns.lookup frame

def breakTy? (c : Completions) (target : BreakTarget) : Option Ty := c.breaks.lookup target

def takeReturn (c : Completions) (frame : FrameId) : Option Ty × Completions :=
  let taken := takeAt frame c.returns
  (taken.1, { c with returns := taken.2 })

def takeBreak (c : Completions) (target : BreakTarget) : Option Ty × Completions :=
  let taken := takeAt target c.breaks
  (taken.1, { c with breaks := taken.2 })

def dropReturn (c : Completions) (frame : FrameId) : Completions := (c.takeReturn frame).2

def dropBreak (c : Completions) (target : BreakTarget) : Completions := (c.takeBreak target).2

/-- The ends of an expanded call, given those of the callee's body: returns from its frame and
breaks out of the call end it normally. -/
def throughCall (body : Completions) (site : SiteId) (frame : FrameId) : Completions :=
  let returned := body.takeReturn frame
  let broke := returned.2.takeBreak (.call site)
  broke.2.joinNormal (Ty.mergeOption returned.1 broke.1)

/-- The ends of a loop, given those of one round: a break out of it ends it with a value, and a loop
that can stop by itself ends with nil. -/
def throughLoop (body : Completions) (id : LoopId) (terminates : Bool) : Completions :=
  let broke := body.dropNormal.takeBreak (.loop id)
  let lifted := broke.2.joinNormal broke.1
  if terminates then lifted.joinNormal (some Ty.nil) else lifted

/-- The type of a method's result, none if no call of it ever returns. -/
def methodResult (body : Completions) (frame : FrameId) : Option Ty :=
  let returned := body.takeReturn frame
  Ty.mergeOption returned.2.normal returned.1

/-- Both hold the same types for the same targets in the same order. -/
protected def same (c d : Completions) : Bool :=
  c.normal == d.normal && sameEntries c.returns d.returns && sameEntries c.breaks d.breaks

instance : BEq Completions := ⟨Completions.same⟩

end Completions

end TypedBlocks

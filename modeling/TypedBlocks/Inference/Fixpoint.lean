import TypedBlocks.Inference.Elaboration

/-!
# The fixed point of inference

Passes over the whole program are repeated until one of them leaves all tables as they were; only
its result and its errors count. Whenever the layouts of objects change, everything else is inferred
anew, because it may hold types made from older layouts.
-/
namespace TypedBlocks.Inference

/-- Why inference gave no program. -/
inductive Failure where
  | errors (es : List StaticError)
  | outOfFuel
  deriving DecidableEq, Repr

/-- The layouts by class name. -/
def sortedLayouts (ts : Tables) : List Typed.Layout :=
  (ts.layouts.map fun (c, vars) => (⟨c, vars⟩ : Typed.Layout)).mergeSort fun a b =>
    decide (a.className ≤ b.className)

/-- Elaborate the top-level body, and with it all methods that it comes to call. -/
def elaborateProgram (cx : Setting) (fuel : Nat) (statements : List Expr) : Pass Typed.Program := do
  let frame ← Pass.newFrame
  let path : ScopeChain := [.main]
  let self ← Pass.bindSelf path Ty.main
  let activation : BodyContext := ⟨path, "main", Ty.main, self, [(.program, .frame frame)], .body⟩
  let body ← elaborateBody (elaborateExpr cx fuel) ⟨activation, 0⟩ statements
  let s ← get
  let main : Typed.Method :=
    { id := .main, name := "main", owner := none, selfType := Ty.main, selfSlot := self
      parameters := [], locals := s.frame.typedSlots s.tables, body := body.code
      returnType := body.ends.methodResult frame, frame }
  return ⟨main, s.methods.filterMap id, cx.captures.sorted, sortedLayouts s.tables⟩

/-- Each error once, in the order of their first occurrence. -/
def distinctErrors (es : List StaticError) : List StaticError :=
  es.foldl (fun seen e => if seen.contains e then seen else seen ++ [e]) []

/-- Repeat passes, at most as many as are left. -/
def iterate (cx : Setting) (fuel : Nat) (statements : List Expr) :
    Nat → Tables → Except Failure Typed.Program
  | 0, _ => .error (.errors [.noFixedPoint cx.limits.maxPasses])
  | left + 1, ts =>
    match (elaborateProgram cx fuel statements).run (PassState.start ts) with
    | none => .error .outOfFuel
    | some (p, s) =>
      if !s.tables.sameLayouts ts then iterate cx fuel statements left s.tables.layoutsOnly
      else if s.tables.same ts then
        if s.errors.isEmpty then .ok p else .error (.errors (distinctErrors s.errors))
      else iterate cx fuel statements left s.tables

/-- Infer all types of a program and elaborate it. -/
def infer (cx : Setting) (fuel : Nat) (bodies : List (List Expr)) :
    Except Failure Typed.Program :=
  iterate cx fuel bodies.flatten cx.limits.maxPasses Tables.empty

/-- More fuel than the nesting of any program of practical size takes. -/
def ampleFuel : Nat := Nat.pow 10 18

end TypedBlocks.Inference

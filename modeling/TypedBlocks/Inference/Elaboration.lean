import TypedBlocks.Inference.Pass

/-!
# Elaboration of expressions

Each construct is elaborated by a function of its own, which is given the elaboration of whole
expressions as an argument. An expression whose operand cannot end normally is replaced by the
operands up to that one, so that no unreachable code remains. `elaborateExpr` ties the functions
together; each nesting of elaborations takes one unit of fuel.
-/
namespace TypedBlocks.Inference

open Typed (SlotId)

/-- Elaboration of an expression at a place. -/
abbrev Elaborate := Place → Expr → Pass Elaborated

/-- Elaborate expressions in order, up to the first after which control cannot go on. -/
def elaborateParts (elaborate : Elaborate) (here : Place) (ends : Completions) :
    List Expr → Pass (List Typed.Expr × Completions)
  | [] => return ([], ends)
  | e :: es => do
    let first ← elaborate here e
    let ends := ends.andThen first.ends
    if ends.fallsThrough then
      let (rest, ends) ← elaborateParts elaborate here ends es
      return (first.code :: rest, ends)
    else return ([first.code], ends)

/-- Elaborate the statements of a body. -/
def elaborateBody (elaborate : Elaborate) (here : Place) (body : List Expr) : Pass Elaborated := do
  if body.isEmpty then return Elaborated.nil
  let (parts, ends) ← elaborateParts elaborate here (Completions.ofNormal Ty.nil) body
  return ⟨Typed.Expr.ofParts parts ends.normal, ends⟩

/-- Elaborate operands; where one cannot end normally, the operands up to it stand for the whole. -/
def withOperands (elaborate : Elaborate) (here : Place) (operands : List Expr)
    (next : List Typed.Expr → Completions → Pass Elaborated) : Pass Elaborated := do
  let (parts, ends) ← elaborateParts elaborate here (Completions.ofNormal Ty.nil) operands
  if ends.fallsThrough then next parts ends
  else return ⟨Typed.Expr.ofParts parts none, ends⟩

/-- Elaborate one operand and go on with its type if it can end normally. -/
def withOperand (elaborate : Elaborate) (here : Place) (operand : Expr)
    (next : Elaborated → Ty → Pass Elaborated) : Pass Elaborated := do
  let l ← elaborate here operand
  match l.ends.normal with
  | some t => next l t
  | none => return l

def literalTy : Literal → Ty
  | .integer _ => Ty.int
  | .float _ => Ty.float
  | .string _ => Ty.string
  | .char _ => Ty.char
  | .boolean _ => Ty.bool
  | .nil => Ty.nil

/-- Read a local variable. Where it may not have been assigned yet, it may be nil. -/
def elaborateLocal (cx : Setting) (here : Place) (name : String) : Pass Elaborated := do
  let (id, key) ← Pass.localVar cx.captures here.activation name
  unless ← Pass.isAssigned key do Pass.updateTables (·.extendVar key Ty.nil)
  let t := ((← Pass.tables).var? key).getD Ty.nil
  return .ofNode (.slot id) (.ofNormal t)

def elaborateInstanceVar (here : Place) (span : Span) (name : String) : Pass Elaborated := do
  match here.activation.objectClass? with
  | none => Pass.fail (.instanceVariableOutsideObject name span)
  | some c =>
    let ts ← Pass.tables
    let t := match ts.instanceVar? c name with
      | some t => ts.withLayouts t
      | none => Ty.nil
    return .ofNode (.instanceVar here.activation.selfSlot name) (.ofNormal t)

def elaborateGlobal (name : String) : Pass Elaborated := do
  let t := ((← Pass.tables).globals.lookup name).getD Ty.nil
  return .ofNode (.global name) (.ofNormal t)

/-- A constant: a class or library first, else one that the program assigns. -/
def elaborateConstant (cx : Setting) (span : Span) (name : String) : Pass Elaborated := do
  if cx.definitions.isClass name || cx.definitions.isLib name then
    return .ofNode (.classRef name) (.ofNormal (Ty.classOf name))
  else if cx.definitions.isConstant name then
    let t := ((← Pass.tables).constants.lookup name).getD Ty.nil
    return .ofNode (.constant name) (.ofNormal t)
  else Pass.fail (.undefinedConstant name span)

def elaborateRead (cx : Setting) (here : Place) (span : Span) (v : Variable) : Pass Elaborated :=
  match v.kind with
  | .local => elaborateLocal cx here v.name
  | .instanceVar => elaborateInstanceVar here span v.name
  | .global => elaborateGlobal v.name
  | .constant => elaborateConstant cx span v.name

def elaborateSelf (here : Place) : Elaborated :=
  .ofNode (.slot here.activation.selfSlot) (.ofNormal here.activation.selfType)

def elaborateAssignment (cx : Setting) (elaborate : Elaborate) (here : Place) (span : Span)
    (v : Variable) (value : Expr) : Pass Elaborated :=
  withOperand elaborate here value fun l t =>
    match v.kind with
    | .local => do
      let (id, key) ← Pass.localVar cx.captures here.activation v.name
      Pass.updateTables (·.extendVar key t)
      Pass.markAssigned key
      return .ofNode (.assign id l.code) l.ends
    | .instanceVar => do
      match here.activation.objectClass? with
      | none => Pass.fail (.instanceVariableOutsideObject v.name span)
      | some c =>
        Pass.updateTables (·.extendLayout c v.name t)
        return .ofNode (.assignInstanceVar here.activation.selfSlot v.name l.code) l.ends
    | .global => do
      Pass.updateTables (·.extendGlobal v.name t)
      return .ofNode (.assignGlobal v.name l.code) l.ends
    | .constant => do
      Pass.updateTables (·.extendConstant v.name t)
      return .ofNode (.assignConstant v.name l.code) l.ends

/-- A `return` or `break`; without a value it carries nil. -/
def elaborateExit (cx : Setting) (elaborate : Elaborate) (here : Place) (id : NodeId) (span : Span)
    (keyword : String) (value : Option Expr) : Pass Elaborated := do
  let leave (l : Elaborated) (t : Ty) : Pass Elaborated :=
    match (cx.exits.target? id).bind fun x => here.activation.target? x with
    | some (.frame f) =>
      return .ofNode (.return f l.code) (l.ends.dropNormal.add (.return f t))
    | some (.break b) =>
      return .ofNode (.break b l.code) (l.ends.dropNormal.add (.break b t))
    | none => Pass.fail (.unresolvedExit keyword span)
  match value with
  | some e => withOperand elaborate here e leave
  | none => leave Elaborated.nil Ty.nil

def elaborateNot (elaborate : Elaborate) (here : Place) (operand : Expr) : Pass Elaborated :=
  withOperand elaborate here operand fun l _ =>
    return .ofNode (.not l.code) (l.ends.dropNormal.add (.normal Ty.bool))

def elaborateConditional (elaborate : Elaborate) (here : Place) (kind : ConditionKind)
    (condition : Expr) (consequent : List Expr) (alternative : Option (List Expr)) :
    Pass Elaborated :=
  withOperand elaborate here condition fun c _ => do
    let before ← Pass.assigned
    let first ← elaborateBody elaborate here consequent
    let afterFirst ← Pass.assigned
    Pass.setAssigned before
    let second ← match alternative with
      | some body => elaborateBody elaborate here body
      | none => pure Elaborated.nil
    let afterSecond ← Pass.assigned
    Pass.setAssigned (assignedAfter before
      [(first.ends.fallsThrough, afterFirst), (second.ends.fallsThrough, afterSecond)])
    let (yes, no) := match kind with
      | .if => (first, second)
      | .unless => (second, first)
    return .ofNode (.conditional c.code yes.code no.code)
      ((c.ends.dropNormal.join yes.ends).join no.ends)

/-- A loop. Its body may run no time at all, so what it assigns does not count after it. -/
def elaborateWhile (elaborate : Elaborate) (here : Place) (id : NodeId) (condition : Expr)
    (body : List Expr) : Pass Elaborated :=
  withOperand elaborate here condition fun c _ => do
    let before ← Pass.assigned
    let loop ← Pass.newLoop
    let inside : Place :=
      { here with activation := here.activation.withTarget (.loop id) (.break (.loop loop)) }
    let b ← elaborateBody elaborate inside body
    Pass.setAssigned before
    return .ofNode (.while loop c.code b.code)
      (c.ends.dropNormal.join (b.ends.throughLoop loop !condition.alwaysTrue))

/-- A short-circuiting operator, whose value is that of one operand. -/
def elaborateLogical (elaborate : Elaborate) (here : Place) (connective : Connective)
    (left right : Expr) : Pass Elaborated :=
  withOperand elaborate here left fun l t => do
    let before ← Pass.assigned
    let r ← elaborate here right
    Pass.setAssigned before
    let ends := (l.ends.dropNormal.join r.ends).joinNormal (some t)
    return match connective with
      | .and => .ofNode (.and l.code r.code) ends
      | .or => .ofNode (.or l.code r.code) ends

/-- A call as it is written. -/
structure CallSyntax where
  id : NodeId
  name : String
  nameSpan : Span
  block : Option Block
  toSelf : Bool

/-- Make a method present for a choice of types, unless it is already. -/
def elaborateMethod (cx : Setting) (elaborate : Elaborate) (depth : Nat) (key : Instantiation) :
    Pass Typed.InstanceId := do
  let s ← get
  match s.instances.lookup key with
  | some id => return id
  | none =>
    let id : Typed.InstanceId := ⟨s.methods.size⟩
    modify fun s =>
      { s with methods := s.methods.push none, instances := s.instances ++ [(key, id)] }
    match cx.definitions.method? key.method with
    | none => return id
    | some m =>
      let frame ← Pass.newFrame
      let outer := (← get).frame
      modify fun s => { s with frame := FrameSlots.empty }
      let path : ScopeChain := [.instance key]
      let self ← Pass.bindSelf path key.selfType
      let parameters ← Pass.bindVars path m.parameters key.arguments
      let activation : BodyContext :=
        ⟨path, m.fullName, key.selfType, self, [(.method m.definition.id, .frame frame)], .body⟩
      let body ← elaborateBody elaborate ⟨activation, depth⟩ m.definition.body
      let s ← get
      let locals := s.frame.typedSlots s.tables
      let tables := s.tables.extendResult key (body.ends.methodResult frame)
      let method : Typed.Method :=
        { id, name := m.name, owner := m.owner, selfType := key.selfType, selfSlot := self,
          parameters, locals, body := body.code, returnType := tables.result? key, frame }
      set { s with
        frame := outer, tables
        methods := s.methods.setIfInBounds id.val (some method) }
      return id

/-- Expand a method that yields at a call of it. The expansion shares the frame of the caller; its
returns and the breaks of the block end the call. -/
def expandCall (cx : Setting) (elaborate : Elaborate) (here : Place) (call : CallSyntax)
    (m : MethodEntry) (key : Instantiation) (block : Block) (receiver : Typed.Expr)
    (arguments : List Typed.Expr) : Pass Elaborated := do
  let name := m.fullName
  if here.depth ≥ cx.limits.maxInlineDepth then
    Pass.fail (.inlineDepthExceeded name cx.limits.maxInlineDepth call.nameSpan)
  else
    let site ← Pass.newSite
    let frame ← Pass.newFrame
    let path := .inline call.id key :: here.activation.path
    let before ← Pass.assigned
    Pass.unassign path
    let self ← Pass.bindSelf path key.selfType
    let parameters ← Pass.bindVars path m.parameters key.arguments
    let activation : BodyContext :=
      ⟨path, name, key.selfType, self, [(.method m.definition.id, .frame frame)],
        .expansion block site here.activation⟩
    let body ← elaborateBody elaborate ⟨activation, here.depth + 1⟩ m.definition.body
    let locals ← Pass.slotsWithin path
    let breakType := body.ends.breakTy? (.call site)
    let returnType := body.ends.returnTy? frame
    -- Whoever leaves early skips the assignments further on.
    if breakType.isSome || returnType.isSome then Pass.setAssigned before
    return .ofNode
      (.inline
        { site, frame, name, selfSlot := self, receiver, parameters, locals, arguments
          body := body.code, breakType, returnType })
      (body.ends.throughCall site frame)

/-- The initializer that a class has for arguments of the given types; one that yields is none. -/
def initializer? (cx : Setting) (object : Ty) (types : List Ty) : Option MethodId :=
  match cx.definitions.dispatch? ⟨object, "initialize", types, false, false⟩ with
  | some (.method id) => if (cx.definitions.method? id).any fun m => !m.yields then some id else none
  | _ => none

/-- Make an object of a class and initialize it, if the class has an initializer for the arguments.
The type of the result is the layout as it is after that. -/
def elaborateConstruct (cx : Setting) (elaborate : Elaborate) (here : Place) (call : CallSyntax)
    (className : String) (arguments : List Typed.Expr) (types : List Ty) : Pass Elaborated := do
  let object := (← Pass.tables).objectTy className
  let finish (initializer : Option Typed.InstanceId) : Pass Elaborated := do
    let t := (← Pass.tables).objectTy className
    return .ofNode (.construct className initializer arguments) (.ofNormal t)
  match initializer? cx object types with
  | some id =>
    let key : Instantiation := ⟨id, object, types⟩
    let instanceId ← elaborateMethod cx elaborate here.depth key
    match (← Pass.tables).result? key with
    | some _ => finish (some instanceId)
    | none =>
      return .ofNode (.construct className (some instanceId) arguments) Completions.never
  | none =>
    if arguments.isEmpty then finish none
    else
      Pass.fail (.undefinedMethod object.text "initialize" arguments.length call.nameSpan)

/-- Call a method: expanded in place if it yields, else for the types at hand. Functions of the top
level run with the main object as `self`, whatever the receiver. -/
def elaborateMethodCall (cx : Setting) (elaborate : Elaborate) (here : Place) (call : CallSyntax)
    (m : MethodEntry) (receiver : Typed.Expr) (receiverType : Ty) (arguments : List Typed.Expr)
    (types : List Ty) : Pass Elaborated := do
  let (selfType, receiver) : Ty × Typed.Expr := match m.owner with
    | some _ => (receiverType, receiver)
    | none => (Ty.main, ⟨some Ty.main, .mainObject⟩)
  let key : Instantiation := ⟨m.id, selfType, types⟩
  if m.yields then
    match call.block with
    | some block => expandCall cx elaborate here call m key block receiver arguments
    | none => Pass.fail (.missingBlock m.fullName call.nameSpan)
  else
    let id ← elaborateMethod cx elaborate here.depth key
    let ends := match (← Pass.tables).result? key with
      | some t => Completions.ofNormal t
      | none => Completions.never
    return .ofNode (.call id receiver arguments) ends

/-- Elaborate a call whose receiver and arguments have one type each. -/
def elaborateArm (cx : Setting) (elaborate : Elaborate) (here : Place) (call : CallSyntax)
    (operands : List Typed.Expr) (types : List Ty) : Pass Elaborated := do
  match types with
  | [] => Pass.fail (.undefinedMethod Ty.nil.text call.name 0 call.nameSpan)
  | receiverType :: argumentTypes =>
    let undefined : Pass Elaborated :=
      Pass.fail (.undefinedMethod receiverType.text call.name argumentTypes.length call.nameSpan)
    let receiver := operands.headD Typed.Expr.nil
    let arguments := operands.drop 1
    match cx.definitions.dispatch?
        ⟨receiverType, call.name, argumentTypes, call.block.isSome, call.toSelf⟩ with
    | none => undefined
    | some (.primitive p) =>
      return .ofNode (.primitive p receiver arguments)
        (.ofNormal (p.resultTy receiverType argumentTypes))
    | some (.construct c) => elaborateConstruct cx elaborate here call c arguments argumentTypes
    | some (.foreign lib name) =>
      let ends := match (cx.definitions.foreign? lib name).bind ForeignEntry.resultTy? with
        | some t => Completions.ofNormal t
        | none => Completions.never
      return .ofNode (.foreign lib name arguments) ends
    | some (.method id) =>
      match cx.definitions.method? id with
      | none => undefined
      | some m =>
        elaborateMethodCall cx elaborate here call m receiver receiverType arguments argumentTypes

/-- Elaborate the arms of a call one by one, each from the same assigned variables. -/
def elaborateArms (cx : Setting) (elaborate : Elaborate) (here : Place) (call : CallSyntax)
    (temps : List SlotId) (before : List ScopeVar) :
    List (List Ty) → Pass (List (Typed.Arm × Completions × List ScopeVar))
  | [] => return []
  | types :: rest => do
    Pass.setAssigned before
    let operands := (temps.zip types).map fun (s, t) => Typed.Expr.ofSlot s (some t)
    let arm ← elaborateArm cx elaborate here call operands types
    let after ← Pass.assigned
    return (⟨types, arm.code⟩, arm.ends, after) ::
      (← elaborateArms cx elaborate here call temps before rest)

def tempSlots : List Ty → Pass (List SlotId)
  | [] => return []
  | t :: ts => do
    let id ← Pass.tempSlot t
    return id :: (← tempSlots ts)

/-- Elaborate a call of known operands: straight if no operand is a union, else with an arm for each
choice of members. -/
def elaborateDispatch (cx : Setting) (elaborate : Elaborate) (here : Place) (call : CallSyntax)
    (operands : List Typed.Expr) (types : List Ty) : Pass Elaborated := do
  if types.any Ty.isUnion then
    match armsWithin cx.limits.maxArms types with
    | .error n => Pass.fail (.tooManyArms call.name n cx.limits.maxArms call.nameSpan)
    | .ok choices =>
      let temps ← tempSlots types
      let before ← Pass.assigned
      let arms ← elaborateArms cx elaborate here call temps before choices
      Pass.setAssigned (assignedAfter before
        (arms.map fun (_, ends, after) => (ends.fallsThrough, after)))
      return .ofNode (.dispatch operands temps (arms.map (·.1)))
        (arms.foldl (fun ends arm => ends.join arm.2.1) Completions.never)
  else elaborateArm cx elaborate here call operands types

/-- Elaborate a call; one without a receiver is sent to `self`. -/
def elaborateCall (cx : Setting) (elaborate : Elaborate) (here : Place) (id : NodeId)
    (receiver : Option Expr) (name : String) (nameSpan : Span) (arguments : List Expr)
    (block : Option Block) : Pass Elaborated :=
  withOperands elaborate here (receiver.toList ++ arguments) fun parts ends => do
    let self := Typed.Expr.ofSlot here.activation.selfSlot (some here.activation.selfType)
    let parts := if receiver.isNone then self :: parts else parts
    let call : CallSyntax := ⟨id, name, nameSpan, block, receiver.isNone⟩
    let l ← elaborateDispatch cx elaborate here call parts (parts.filterMap (·.ty))
    return ⟨l.code, ends.andThen l.ends⟩

/-- Bind the parameters of a block to the types of what is yielded. Missing arguments are nil, and
extra ones are dropped. -/
def bindYielded (path : ScopeChain) : List BlockParameter → List Typed.Expr → Pass (List SlotId)
  | [], _ => return []
  | p :: ps, arguments => do
    let t := (arguments.head?.bind (·.ty)).getD Ty.nil
    let id ← Pass.bindVar path p.name t
    return id :: (← bindYielded path ps (arguments.drop 1))

/-- Run the block that the method around was called with. Its body is elaborated in the scope where
it stands. -/
def elaborateYield (elaborate : Elaborate) (here : Place) (span : Span) (arguments : List Expr) :
    Pass Elaborated :=
  withOperands elaborate here arguments fun parts ends => do
    let method := here.activation.methodBody
    match method.origin with
    | .expansion block site definer =>
      let path := .block block.id :: definer.path
      Pass.unassign path
      let parameters ← bindYielded path block.parameters parts
      let activation : BodyContext :=
        { definer with
          path
          targets := [(.block block.id, .break (.call site))]
          origin := .block block.id definer }
      let body ← elaborateBody elaborate ⟨activation, here.depth⟩ block.body
      let locals ← Pass.slotsWithin path
      let ends := ends.andThen body.ends
      return .ofNode (.yield parameters locals parts body.code) ends
    | _ => Pass.fail (.missingBlock method.methodName span)

/-- Elaborate an expression, given the elaboration of its parts. -/
def elaborateForm (cx : Setting) (elaborate : Elaborate) (here : Place) (e : Expr) :
    Pass Elaborated :=
  match e.form with
  | .literal l => return .ofNode (.literal l) (.ofNormal (literalTy l))
  | .read v => elaborateRead cx here e.span v
  | .self => return elaborateSelf here
  | .assign v _ value => elaborateAssignment cx elaborate here e.span v value
  | .call receiver name nameSpan arguments block =>
    elaborateCall cx elaborate here e.id receiver name nameSpan arguments block
  | .yield arguments => elaborateYield elaborate here e.span arguments
  | .return value => elaborateExit cx elaborate here e.id e.span "return" value
  | .break value => elaborateExit cx elaborate here e.id e.span "break" value
  | .conditional kind condition consequent alternative =>
    elaborateConditional elaborate here kind condition consequent alternative
  | .while condition body => elaborateWhile elaborate here e.id condition body
  | .logical connective left right => elaborateLogical elaborate here connective left right
  | .not operand => elaborateNot elaborate here operand
  -- Definitions have been collected before.
  | .defMethod _ | .defClass _ | .defLib _ => return Elaborated.nil

def elaborateExpr (cx : Setting) : Nat → Elaborate
  | 0, _, _ => Pass.outOfFuel
  | fuel + 1, here, e => elaborateForm cx (elaborateExpr cx fuel) here e

end TypedBlocks.Inference

import TypedBlocks.Proofs.CaptureWalk
import TypedBlocks.Proofs.ExitNesting

/-!
# Rearranged definitions

Statements can be rearranged so that definitions keep their order among themselves, all other
statements theirs, and the last statement its place. What is collected about a program before it is
elaborated does not notice: the definitions are the same, and so are the targets of all exits and
what every block captures.
-/
namespace TypedBlocks

/-- The statement defines a method, a class or a library. -/
def Expr.isDefinition (e : Expr) : Bool :=
  match e.form with
  | .defMethod _ | .defClass _ | .defLib _ => true
  | _ => false

/-- Both lists have the same definitions in the same order, the same other statements in the same
order, and the same last statement. -/
structure Rearranged (es fs : List Expr) : Prop where
  definitions : es.filter Expr.isDefinition = fs.filter Expr.isDefinition
  others : es.filter (!Expr.isDefinition ·) = fs.filter (!Expr.isDefinition ·)
  last : es.getLast? = fs.getLast?

section Folds

variable {α β : Type} {p : α → Bool} {f : β → α → β} {R : β → β → Prop}
  (refl : ∀ s, R s s) (trans : ∀ {s t u}, R s t → R t u → R s u)
  (congr : ∀ {s t} a, R s t → R (f s a) (f t a))

include congr

theorem foldl_related {s t : β} (es : List α) (related : R s t) : R (es.foldl f s) (es.foldl f t) := by
  induction es generalizing s t with
  | nil => exact related
  | cons a es ih => exact ih (congr a related)

include refl trans

/-- An element that can be exchanged with all later ones that pass the test can come after them. -/
theorem foldl_postponed {a : α} {es : List α}
    (swap : ∀ c ∈ es, p c = true → ∀ s, R (f (f s a) c) (f (f s c) a)) (s : β) :
    R ((es.filter p).foldl f (f s a)) (f ((es.filter p).foldl f s) a) := by
  induction es generalizing s with
  | nil => exact refl _
  | cons c es ih =>
    rw [List.forall_mem_cons] at swap
    cases passes : p c with
    | true =>
      rw [List.filter_cons_of_pos passes, List.foldl_cons, List.foldl_cons]
      exact trans (foldl_related congr _ (swap.1 passes s)) (ih swap.2 (f s c))
    | false =>
      rw [List.filter_cons_of_neg (by simp [passes])]
      exact ih swap.2 s

/-- A fold may take those elements that pass the test first, if each of them can be exchanged with the
others before it. -/
theorem foldl_parted {es : List α} (swap : es.Pairwise fun a c => p a = false → p c = true →
      ∀ s, R (f (f s a) c) (f (f s c) a)) (s : β) :
    R (es.foldl f s) ((es.filter p ++ es.filter (!p ·)).foldl f s) := by
  induction es generalizing s with
  | nil => exact refl _
  | cons a es ih =>
    rw [List.pairwise_cons] at swap
    cases passes : p a with
    | true =>
      rw [List.filter_cons_of_pos passes, List.filter_cons_of_neg (by simp [passes])]
      exact ih swap.2 (f s a)
    | false =>
      rw [List.filter_cons_of_neg (by simp [passes]), List.filter_cons_of_pos (by simp [passes]),
        List.foldl_append, List.foldl_cons]
      have later := foldl_postponed refl trans congr (p := p) (fun c member => swap.1 c member passes) s
      have rest := ih swap.2 (f s a)
      rw [List.foldl_append] at rest
      exact trans rest (foldl_related congr _ later)

end Folds

section Statements

variable {es fs : List Expr}

theorem Rearranged.perm (rearranged : Rearranged es fs) : es.Perm fs := by
  have parted (es : List Expr) := List.filter_append_perm Expr.isDefinition es
  refine (parted es).symm.trans (List.Perm.trans ?_ (parted fs))
  rw [rearranged.definitions, rearranged.others]

theorem Rearranged.symm (rearranged : Rearranged es fs) : Rearranged fs es :=
  ⟨rearranged.definitions.symm, rearranged.others.symm, rearranged.last.symm⟩

/-- A definition can come before the statement before it. -/
theorem Rearranged.swap {d e : Expr} (definition : d.isDefinition = true)
    (other : e.isDefinition = false) (more : es ≠ []) :
    Rearranged (e :: d :: es) (d :: e :: es) where
  definitions := by simp [definition, other]
  others := by simp [definition, other]
  last := by
    obtain ⟨f, fs, rfl⟩ := List.exists_cons_of_ne_nil more
    rfl

/-- The numbers of the statements of a program lie apart. -/
theorem listIds_disjoint (distinct : (listIds es).Nodup) :
    es.Pairwise fun d e => d.ids.Disjoint e.ids := by
  rw [listIds_flatMap] at distinct
  exact (List.nodup_flatMap.1 distinct).2

theorem Rearranged.distinct (rearranged : Rearranged es fs) (distinct : (listIds es).Nodup) :
    (listIds fs).Nodup := by
  rw [listIds_flatMap] at distinct ⊢
  exact (rearranged.perm.flatMap_right _).nodup_iff.1 distinct

/-- A fold over rearranged statements has the same result, up to what an exchange of a definition with
another statement changes. -/
theorem Rearranged.foldl {β : Type} {f : β → Expr → β} {R : β → β → Prop} (refl : ∀ s, R s s)
    (symm : ∀ {s t}, R s t → R t s) (trans : ∀ {s t u}, R s t → R t u → R s u)
    (congr : ∀ {s t} e, R s t → R (f s e) (f t e)) (rearranged : Rearranged es fs)
    (distinct : (listIds es).Nodup)
    (swap : ∀ d e, d.isDefinition = true → e.isDefinition = false → e.ids.Disjoint d.ids → ∀ s,
      R (f (f s e) d) (f (f s d) e)) (s : β) : R (es.foldl f s) (fs.foldl f s) := by
  have parted {gs : List Expr} (distinct : (listIds gs).Nodup) :=
    foldl_parted refl trans congr (p := Expr.isDefinition)
      ((listIds_disjoint distinct).imp fun apart other definition s =>
        swap _ _ definition other apart s) s
  have first := parted distinct
  rw [rearranged.definitions, rearranged.others] at first
  exact trans first (symm (parted (rearranged.distinct distinct)))

end Statements

namespace Definitions

variable {d : Definitions} {e : Expr}

/-- Definitions do not look at the constants of a program. -/
theorem enterStatement_constants (definition : e.isDefinition = true) (cs : List String) :
    enterStatement { d with constants := cs } e =
      { d.enterStatement e with constants := cs } ∧
    (d.enterStatement e).constants = d.constants := by
  have methods (owner : Option String) (ms : List MethodDef) (d : Definitions) :
      ms.foldl (fun d m => d.enterMethod owner m) { d with constants := cs } =
          { ms.foldl (fun d m => d.enterMethod owner m) d with constants := cs } ∧
        (ms.foldl (fun d m => d.enterMethod owner m) d).constants = d.constants := by
    induction ms generalizing d with
    | nil => exact ⟨rfl, rfl⟩
    | cons m ms ih => exact ih (d.enterMethod owner m)
  unfold Expr.isDefinition at definition
  cases form : e.form with
  | defMethod m => simp [enterStatement, form, enterMethod]
  | defClass c =>
    simp only [enterStatement, form]
    have opened : openClass { d with constants := cs } c = { d.openClass c with constants := cs } ∧
        (d.openClass c).constants = d.constants := by
      unfold openClass
      by_cases known : d.isClass c.name = true
      · rw [if_pos known, if_pos (show isClass { d with constants := cs } c.name = true from known)]
        exact ⟨rfl, rfl⟩
      · rw [if_neg known, if_neg (show ¬ isClass { d with constants := cs } c.name = true from known)]
        exact ⟨rfl, rfl⟩
    rw [opened.1, (methods _ _ _).1, (methods _ _ _).2, opened.2]
    exact ⟨rfl, rfl⟩
  | defLib l => simp [enterStatement, form, enterLib]
  | _ => simp [form] at definition

/-- A statement that defines nothing enters at most a constant. -/
theorem enterStatement_other (other : e.isDefinition = false) :
    (∀ d : Definitions, d.enterStatement e = d) ∨
      ∃ name, ∀ d : Definitions, d.enterStatement e = { d with constants := name :: d.constants } := by
  unfold Expr.isDefinition at other
  cases form : e.form with
  | defMethod m | defClass c | defLib l => simp [form] at other
  | assign v span value =>
    rcases v with ⟨kind, name⟩
    cases kind with
    | constant => exact .inr ⟨name, fun d => by simp [enterStatement, form]⟩
    | «local» | instanceVar | global => exact .inl fun d => by simp [enterStatement, form]
  | _ => exact .inl fun d => by simp [enterStatement, form]

theorem enterStatement_swap {c : Expr} (definition : c.isDefinition = true)
    (other : e.isDefinition = false) :
    (d.enterStatement e).enterStatement c = (d.enterStatement c).enterStatement e := by
  rcases enterStatement_other other with nothing | ⟨name, constant⟩
  · rw [nothing, nothing]
  · rw [constant, constant, (enterStatement_constants definition _).1,
      (enterStatement_constants definition []).2]

/-- Only definitions declare superclasses. -/
theorem declaredSuperclass?_filter (es : List Expr) :
    es.filterMap declaredSuperclass? = (es.filter Expr.isDefinition).filterMap declaredSuperclass? := by
  rw [List.filterMap_filter]
  refine List.filterMap_congr fun e _ => ?_
  unfold Expr.isDefinition declaredSuperclass?
  cases e.form <;> rfl

/-- The definitions of a program, or what is wrong with them, do not depend on where they stand. -/
theorem ofBodies_rearranged {bodies bodies' : List (List Expr)}
    (distinct : (listIds bodies.flatten).Nodup)
    (rearranged : Rearranged bodies.flatten bodies'.flatten) : ofBodies bodies = ofBodies bodies' := by
  have same : bodies.flatten.foldl enterStatement builtin = bodies'.flatten.foldl enterStatement builtin :=
    rearranged.foldl (R := Eq) (fun _ => rfl) Eq.symm Eq.trans
      (fun e same => congrArg (fun d => enterStatement d e) same) distinct
      (fun _ _ definition other _ _ => enterStatement_swap definition other) builtin
  unfold ofBodies
  dsimp only
  rw [declaredSuperclass?_filter bodies.flatten, declaredSuperclass?_filter bodies'.flatten,
    rearranged.definitions, same]

end Definitions

section Exits

variable {bodies bodies' : List (List Expr)}

theorem programOccurrences_rearranged (rearranged : Rearranged bodies.flatten bodies'.flatten) :
    (programOccurrences bodies).Perm (programOccurrences bodies') :=
  rearranged.perm.flatMap_right _

theorem resolveExits_placed {table : ExitTable} (resolved : resolveExits bodies = .ok table) :
    ∀ o ∈ programOccurrences bodies, o.Placed := by
  rw [resolveExits_eq] at resolved
  split at resolved
  · exact offences_nil.1 ‹_›
  · cases resolved

theorem resolveExits_of_placed (placed : ∀ o ∈ programOccurrences bodies, o.Placed) :
    ∃ table, resolveExits bodies = .ok table := by
  rw [resolveExits_eq, offences_nil.2 placed]
  exact ⟨_, rfl⟩

/-- Exits belong to what stands around them, wherever that stands. -/
theorem resolveExits_rearranged (distinct : (listIds bodies.flatten).Nodup)
    (rearranged : Rearranged bodies.flatten bodies'.flatten) {table : ExitTable}
    (resolved : resolveExits bodies = .ok table) :
    ∃ table', resolveExits bodies' = .ok table' ∧ table.target? = table'.target? := by
  have perm := programOccurrences_rearranged rearranged
  have placed : ∀ o ∈ programOccurrences bodies', o.Placed := fun o member =>
    resolveExits_placed resolved o (perm.mem_iff.2 member)
  obtain ⟨table', resolved'⟩ := resolveExits_of_placed placed
  refine ⟨table', resolved', funext fun node => Option.ext fun target => ?_⟩
  rw [target?_iff distinct resolved, target?_iff (rearranged.distinct distinct) resolved']
  simp only [perm.mem_iff]

end Exits

section Walks

namespace CaptureState

/-- The state with other blocks of inner definitions before its own. -/
def behind (s : CaptureState) (bs : List BlockScope) : CaptureState :=
  { s with finished := bs ++ s.finished }

/-- The blocks of definitions, and all blocks that a walk has met, open ones included. -/
def finishedIds (s : CaptureState) : List Nat := s.finished.map (·.block.val)

def metIds (s : CaptureState) : List Nat :=
  s.finishedIds ++ s.pending.map (·.1.block.val) ++
    s.scopes.filterMap fun scope => scope.block.map (·.block.val)

/-- A walk through nodes with the given numbers. It does not look at the blocks of definitions, and
all blocks that it brings in are among the nodes. -/
structure Walks (ids : List Nat) (walk : CaptureState → CaptureState) : Prop where
  behind : ∀ s bs, walk (s.behind bs) = (walk s).behind bs
  finished : ∀ s, (walk s).finishedIds ⊆ s.finishedIds ++ ids
  met : ∀ s, (walk s).metIds ⊆ s.metIds ++ ids

namespace Walks

variable {ids more : List Nat} {walk next : CaptureState → CaptureState}

theorem none : Walks [] fun s => s :=
  ⟨fun _ _ => rfl, fun _ => List.subset_append_left _ _, fun _ => List.subset_append_left _ _⟩

theorem mono (walks : Walks ids walk) (within : ids ⊆ more) : Walks more walk where
  behind := walks.behind
  finished s := List.Subset.trans (walks.finished s) (List.append_subset.2
    ⟨List.subset_append_left _ _, List.subset_append_of_subset_right _ within⟩)
  met s := List.Subset.trans (walks.met s) (List.append_subset.2
    ⟨List.subset_append_left _ _, List.subset_append_of_subset_right _ within⟩)

theorem andThen (first : Walks ids walk) (second : Walks more next) :
    Walks (ids ++ more) fun s => next (walk s) where
  behind s bs := by rw [first.behind, second.behind]
  finished s := by
    refine List.Subset.trans (second.finished _)
      (List.append_subset.2 ⟨List.Subset.trans (first.finished s) ?_, ?_⟩)
    · rw [← List.append_assoc]
      exact List.subset_append_left _ _
    · rw [← List.append_assoc]
      exact List.subset_append_right _ _
  met s := by
    refine List.Subset.trans (second.met _)
      (List.append_subset.2 ⟨List.Subset.trans (first.met s) ?_, ?_⟩)
    · rw [← List.append_assoc]
      exact List.subset_append_left _ _
    · rw [← List.append_assoc]
      exact List.subset_append_right _ _

/-- A step that only looks at scopes, and opens or closes none. -/
theorem of_same (behind : ∀ s bs, walk (s.behind bs) = (walk s).behind bs)
    (finished : ∀ s, (walk s).finished = s.finished) (pending : ∀ s, (walk s).pending = s.pending)
    (scopes : ∀ s, (walk s).scopes.filterMap (fun scope => scope.block.map (·.block.val)) =
      s.scopes.filterMap fun scope => scope.block.map (·.block.val)) : Walks [] walk where
  behind := behind
  finished s := by
    rw [finishedIds, finished, List.append_nil]
    exact List.Subset.refl _
  met s := by
    rw [metIds, finishedIds, finished, pending, scopes, List.append_nil]
    exact List.Subset.refl _

end Walks

/-- Numbers of the blocks whose scopes are open. -/
theorem recordUse?_ids (name : String) (mutated : Bool) {scopes scopes' : List OpenScope}
    (recorded : recordUse? name mutated scopes = some scopes') :
    scopes'.filterMap (fun scope => scope.block.map (·.block.val)) =
      scopes.filterMap fun scope => scope.block.map (·.block.val) := by
  induction scopes generalizing scopes' with
  | nil => cases recorded
  | cons s outer ih =>
    rw [recordUse?] at recorded
    split at recorded
    · cases recorded
      rfl
    · split at recorded
      · cases recorded
      · obtain ⟨outer', inner, rfl⟩ := Option.map_eq_some_iff.1 recorded
        rw [List.filterMap_cons, List.filterMap_cons, ih inner]
        rcases s with ⟨names, _ | b⟩ <;> rfl

theorem recordSelf_ids (scopes : List OpenScope) :
    (recordSelf scopes).filterMap (fun scope => scope.block.map (·.block.val)) =
      scopes.filterMap fun scope => scope.block.map (·.block.val) := by
  induction scopes with
  | nil => rfl
  | cons s outer ih =>
    rw [recordSelf]
    split
    · rfl
    · rw [List.filterMap_cons, List.filterMap_cons, ih]
      rcases s with ⟨names, _ | b⟩ <;> rfl

theorem use_walks (name : String) : Walks [] (·.use name) := by
  refine .of_same (fun _ _ => rfl) (fun _ => rfl) (fun _ => rfl) fun s => ?_
  unfold use
  cases recorded : recordUse? name false s.scopes with
  | none => rfl
  | some scopes => exact recordUse?_ids name false recorded

theorem useSelf_walks : Walks [] useSelf :=
  .of_same (fun _ _ => rfl) (fun _ => rfl) (fun _ => rfl) fun s => recordSelf_ids s.scopes

theorem assignLocal_walks (name : String) (span : Span) : Walks [] (·.assignLocal name span) := by
  refine .of_same (fun _ _ => rfl) (fun _ => rfl) (fun _ => rfl) fun s => ?_
  unfold assignLocal
  cases recorded : recordUse? name true s.scopes with
  | none =>
    rw [Option.getD_none]
    cases s.scopes <;> rfl
  | some scopes => exact recordUse?_ids name true recorded

theorem enterLoop_walks (span : Span) : Walks [] (·.enterLoop span) :=
  .of_same (fun _ _ => rfl) (fun _ => rfl) (fun _ => rfl) fun _ => rfl

theorem leaveLoop_walks : Walks [] leaveLoop :=
  .of_same (fun _ _ => rfl) (fun _ => rfl) (fun _ => rfl) fun _ => rfl

theorem enterBlock_walks (id : NodeId) (span : Span) (parameters : List String) :
    Walks [id.val] (·.enterBlock id span parameters) where
  behind _ _ := rfl
  finished _ := List.subset_append_left _ _
  met s := by
    intro i member
    simp only [metIds, finishedIds, enterBlock, List.filterMap_cons, Option.map_some, List.mem_append,
      List.mem_cons, List.not_mem_nil, or_false] at member ⊢
    tauto

theorem leaveBlock_walks : Walks [] leaveBlock where
  behind s bs := by
    unfold leaveBlock behind
    dsimp only
    split <;> rfl
  finished s := by
    unfold leaveBlock
    split <;> exact List.subset_append_left _ _
  met s := by
    unfold leaveBlock
    split
    · rename_i names b outer open_
      intro i member
      simp only [metIds, finishedIds, open_, List.map_append, List.filterMap_cons, Option.map_some,
        List.mem_append, List.mem_cons, List.map_cons, List.map_nil, List.not_mem_nil,
        or_false] at member ⊢
      tauto
    · exact List.subset_append_left _ _

/-- Blocks of a definition are kept, whatever stands around it. -/
theorem absorb_walks {ids : List Nat} {inner : CaptureState} (within : inner.metIds ⊆ ids) :
    Walks ids (·.absorb inner) := by
  have blocks : inner.blocks.map (·.block.val) ⊆ ids := by
    refine List.Subset.trans ?_ within
    unfold CaptureState.blocks metIds finishedIds
    rw [List.map_append, List.map_map]
    exact List.subset_append_left _ _
  constructor
  · intro s bs
    unfold absorb behind
    rw [List.append_assoc]
  · intro s i member
    unfold finishedIds absorb at member
    rw [List.map_append] at member
    rcases List.mem_append.1 member with old | new
    · exact List.mem_append_left _ old
    · exact List.mem_append_right _ (blocks new)
  · intro s i member
    unfold metIds finishedIds absorb at member
    simp only [List.map_append, List.mem_append] at member
    simp only [metIds, finishedIds, List.mem_append]
    rcases member with ((old | new) | pending) | scope
    · exact .inl (.inl (.inl old))
    · exact .inr (blocks new)
    · exact .inl (.inl (.inr pending))
    · exact .inl (.inr scope)

end CaptureState

open CaptureState

mutual

theorem Expr.walk_walks : ∀ e : Expr, Walks e.ids e.walk
  | ⟨_, span, form⟩ => (Form.walk_walks span form).mono (List.subset_cons_self _ _)

theorem Form.walk_walks (span : Span) : ∀ form : Form, Walks form.ids (form.walk span)
  | .literal _ | .defLib _ => .none
  | .read ⟨kind, name⟩ => by
    cases kind with
    | «local» => exact use_walks name
    | instanceVar => exact useSelf_walks
    | global | constant => exact .none
  | .self => useSelf_walks
  | .assign ⟨kind, name⟩ targetSpan value => by
    have first := Expr.walk_walks value
    cases kind with
    | «local» => exact (first.andThen (assignLocal_walks name targetSpan)).mono (by simp [Form.ids])
    | instanceVar => exact (first.andThen useSelf_walks).mono (by simp [Form.ids])
    | global | constant => exact first
  | .call receiver _ _ arguments block =>
    ((receiverWalk_walks receiver).andThen (listWalk_walks arguments)).andThen (blockWalk_walks block)
  | .yield arguments => listWalk_walks arguments
  | .return value | .break value => optionWalk_walks value
  | .conditional _ condition consequent alternative =>
    ((Expr.walk_walks condition).andThen (listWalk_walks consequent)).andThen
      (bodyWalk_walks alternative)
  | .while condition body =>
    ((((Expr.walk_walks condition).andThen (enterLoop_walks span)).andThen
      (listWalk_walks body)).andThen leaveLoop_walks).mono (by simp [Form.ids])
  | .logical _ left right => (Expr.walk_walks left).andThen (Expr.walk_walks right)
  | .not operand => Expr.walk_walks operand
  | .defMethod m => MethodDef.walk_walks m
  | .defClass ⟨_, _, _, _, methods⟩ => methodsWalk_walks methods

theorem MethodDef.walk_walks : ∀ m : MethodDef, Walks m.ids m.walk
  | ⟨_, _, _, parameters, body⟩ => by
    refine (absorb_walks ?_).mono (List.subset_cons_self _ _)
    exact (listWalk_walks body).met (CaptureState.start (parameters.map (·.name)))

theorem methodsWalk_walks : ∀ ms : List MethodDef, Walks (methodsIds ms) (methodsWalk · ms)
  | [] => .none
  | m :: ms => (MethodDef.walk_walks m).andThen (methodsWalk_walks ms)

theorem listWalk_walks : ∀ es : List Expr, Walks (listIds es) (listWalk · es)
  | [] => .none
  | e :: es => (Expr.walk_walks e).andThen (listWalk_walks es)

theorem optionWalk_walks : ∀ e : Option Expr, Walks (optionIds e) (optionWalk · e)
  | none => .none
  | some e => Expr.walk_walks e

theorem receiverWalk_walks : ∀ e : Option Expr, Walks (optionIds e) (receiverWalk · e)
  | none => useSelf_walks
  | some e => Expr.walk_walks e

theorem bodyWalk_walks : ∀ es : Option (List Expr), Walks (bodyIds es) (bodyWalk · es)
  | none => .none
  | some es => listWalk_walks es

theorem blockWalk_walks : ∀ b : Option Block, Walks (blockIds b) (blockWalk · b)
  | none => .none
  | some ⟨id, span, parameters, body⟩ =>
    (((enterBlock_walks id span (parameters.map (·.name))).andThen (listWalk_walks body)).andThen
      leaveBlock_walks).mono (by simp [blockIds])

end

/-- Both states differ at most in the order in which they have the blocks of definitions. -/
structure CaptureState.Alike (s t : CaptureState) : Prop where
  rest : { s with finished := [] } = { t with finished := [] }
  finished : ∀ i, s.finished.filter (·.block.val == i) = t.finished.filter (·.block.val == i)

variable {s t : CaptureState} {d e : Expr}

theorem CaptureState.behind_finished (s : CaptureState) :
    s = ({ s with finished := [] } : CaptureState).behind s.finished := by
  rw [CaptureState.behind, List.append_nil]

theorem CaptureState.Alike.walk (alike : s.Alike t) (e : Expr) : (e.walk s).Alike (e.walk t) := by
  rw [s.behind_finished, t.behind_finished, alike.rest, e.walk_walks.behind, e.walk_walks.behind]
  refine ⟨rfl, fun i => ?_⟩
  rw [CaptureState.behind, CaptureState.behind, List.filter_append, List.filter_append,
    alike.finished]

/-- A definition only adds its blocks, and they are the same everywhere. -/
theorem definition_walk (definition : d.isDefinition = true) :
    ∃ bs : List BlockScope, bs.map (·.block.val) ⊆ d.ids ∧
      ∀ s : CaptureState, d.walk s = { s with finished := s.finished ++ bs } := by
  have methods : ∀ ms : List MethodDef, ∃ bs : List BlockScope,
      ∀ s : CaptureState, methodsWalk s ms = { s with finished := s.finished ++ bs } := by
    intro ms
    induction ms with
    | nil => exact ⟨[], fun s => by rw [methodsWalk, List.append_nil]⟩
    | cons m ms ih =>
      obtain ⟨_, _, _, parameters, body⟩ := m
      obtain ⟨bs, rest⟩ := ih
      refine ⟨(listWalk (CaptureState.start (parameters.map (·.name))) body).blocks ++ bs,
        fun s => ?_⟩
      rw [methodsWalk, rest, MethodDef.walk, CaptureState.absorb, List.append_assoc]
  suffices ∃ bs : List BlockScope,
      ∀ s : CaptureState, d.walk s = { s with finished := s.finished ++ bs } by
    obtain ⟨bs, adds⟩ := this
    refine ⟨bs, ?_, adds⟩
    have finished := d.walk_walks.finished (CaptureState.start [])
    rw [adds] at finished
    exact finished
  unfold Expr.isDefinition at definition
  obtain ⟨id, span, form⟩ := d
  cases form with
  | defMethod m =>
    obtain ⟨bs, adds⟩ := methods [m]
    exact ⟨bs, adds⟩
  | defClass c =>
    obtain ⟨name, nameSpan, typeParameters, superclass, ms⟩ := c
    exact methods ms
  | defLib l => exact methods []
  | _ => simp at definition

/-- A definition can come before another statement. -/
theorem walk_swap (definition : d.isDefinition = true) (apart : e.ids.Disjoint d.ids) (s : CaptureState) :
    (d.walk (e.walk s)).Alike (e.walk (d.walk s)) := by
  obtain ⟨bs, own, adds⟩ := definition_walk definition
  have moved : d.walk s = ({ s with finished := [] } : CaptureState).behind (s.finished ++ bs) := by
    rw [adds, CaptureState.behind, List.append_nil]
  have before : e.walk s = (e.walk { s with finished := [] }).behind s.finished := by
    rw [← e.walk_walks.behind, ← s.behind_finished]
  rw [moved, e.walk_walks.behind, before, adds]
  refine ⟨rfl, fun i => ?_⟩
  have new := e.walk_walks.finished { s with finished := [] }
  simp only [CaptureState.behind, List.filter_append, List.append_assoc]
  congr 1
  by_cases among : i ∈ e.ids
  · have none : bs.filter (·.block.val == i) = [] := by
      apply List.filter_eq_nil_iff.2
      intro b member same
      exact apart among (own (beq_iff_eq.1 same ▸ List.mem_map_of_mem member))
    rw [none, List.append_nil, List.nil_append]
  · have none : (e.walk { s with finished := [] }).finished.filter (·.block.val == i) = [] := by
      apply List.filter_eq_nil_iff.2
      intro b member same
      exact among (beq_iff_eq.1 same ▸ new (List.mem_map_of_mem member))
    rw [none, List.append_nil, List.nil_append]

theorem listWalk_foldl (s : CaptureState) (es : List Expr) :
    listWalk s es = es.foldl (fun s e => e.walk s) s := by
  induction es generalizing s with
  | nil => rfl
  | cons e es ih => exact ih (e.walk s)

/-- Blocks capture what is around them, wherever definitions stand. -/
theorem bindBlocks_rearranged {bodies bodies' : List (List Expr)}
    (distinct : (listIds bodies.flatten).Nodup)
    (rearranged : Rearranged bodies.flatten bodies'.flatten) :
    (bindBlocks bodies).block? = (bindBlocks bodies').block? := by
  have alike : (listWalk (CaptureState.start []) bodies.flatten).Alike
      (listWalk (CaptureState.start []) bodies'.flatten) := by
    rw [listWalk_foldl, listWalk_foldl]
    exact rearranged.foldl (fun _ => ⟨rfl, fun _ => rfl⟩)
      (fun alike => ⟨alike.rest.symm, fun i => (alike.finished i).symm⟩)
      (fun first second => ⟨first.rest.trans second.rest,
        fun i => (first.finished i).trans (second.finished i)⟩)
      (fun e alike => alike.walk e) distinct (fun _ _ definition _ => walk_swap definition) _
  funext id
  have byId (t : CaptureTable) :
      t.block? id = (t.entries.filter (·.block.val == id.val)).head? := by
    rw [List.head?_filter, CaptureTable.block?]
    congr 1
    funext b
    rw [Bool.eq_iff_iff, beq_iff_eq, beq_iff_eq]
    exact ⟨congrArg NodeId.val, fun same => NodeId.mk.injEq .. |>.mpr same⟩
  have pending := congrArg CaptureState.pending alike.rest
  have assignments := congrArg CaptureState.assignments alike.rest
  dsimp only at pending assignments
  rw [byId, byId, bindBlocks, bindBlocks, foldl_listWalk, foldl_listWalk]
  simp only [CaptureState.blocks, List.filter_append, alike.finished, pending, assignments]

end Walks

end TypedBlocks

import TypedBlocks.Proofs.ClassChains

/-!
# Overloads

A message is answered on the nearest class with a method that can answer it, and among several such
methods by one that is picked in a single run through them: the choice so far is kept only against a
candidate that it is strictly more specific than. So what comes later than the choice is less specific
than it, but an earlier candidate can be more specific: it has been given up for one in between that
it cannot be compared with.
-/
namespace TypedBlocks.Definitions

variable {d : Definitions} {msg : Message}

section Refinement

variable {m n k : MethodEntry} {p q r : Parameter}

theorem restriction?_isClass {c : String} (restricted : d.restriction? p = some c) :
    d.isClass c = true := (Option.filter_eq_some_iff.1 restricted).2

theorem parameterRefines_of_eq (same : d.restriction? p = d.restriction? q) :
    d.parameterRefines p q = true := by
  rw [parameterRefines, same]
  cases demanded : d.restriction? q with
  | none => rfl
  | some c => exact descendsFrom_refl (restriction?_isClass demanded)

theorem parameterRefines_trans (first : d.parameterRefines p q = true)
    (second : d.parameterRefines q r = true) : d.parameterRefines p r = true := by
  rw [parameterRefines] at first second ⊢
  cases third : d.restriction? r with
  | none => rfl
  | some e =>
    cases mid : d.restriction? q with
    | none => simp [mid, third] at second
    | some c =>
      cases demanded : d.restriction? p with
      | none => simp [demanded, mid] at first
      | some b =>
        rw [mid, third] at second
        rw [demanded, mid] at first
        exact descendsFrom_trans first second

theorem refines_of_restrictions
    (same : m.parameters.map d.restriction? = n.parameters.map d.restriction?) :
    d.refines m n = true := by
  rw [refines]
  generalize m.parameters = ps, n.parameters = qs at same
  induction ps generalizing qs with
  | nil => rfl
  | cons p ps ih =>
    cases qs with
    | nil => rfl
    | cons q qs =>
      obtain ⟨head, tail⟩ := List.cons.inj same
      rw [List.zip_cons_cons, List.all_cons, Bool.and_eq_true]
      exact ⟨parameterRefines_of_eq head, ih qs tail⟩

theorem refines_refl (m : MethodEntry) : d.refines m m = true := refines_of_restrictions rfl

theorem refines_trans (size : m.arity = n.arity) (size' : n.arity = k.arity)
    (first : d.refines m n = true) (second : d.refines n k = true) : d.refines m k = true := by
  rw [refines] at first second ⊢
  rw [MethodEntry.arity, MethodEntry.arity] at size size'
  generalize m.parameters = ps, n.parameters = qs, k.parameters = rs at size size' first second
  induction ps generalizing qs rs with
  | nil => rfl
  | cons p ps ih =>
    cases qs with
    | nil => cases size
    | cons q qs =>
      cases rs with
      | nil => rfl
      | cons r rs =>
        rw [List.zip_cons_cons, List.all_cons, Bool.and_eq_true] at first second ⊢
        exact ⟨parameterRefines_trans first.1 second.1, ih qs rs (Nat.succ.inj size)
          (Nat.succ.inj size') first.2 second.2⟩

theorem strictlyRefines_iff :
    d.strictlyRefines m n = true ↔ d.refines m n = true ∧ d.refines n m = false := by
  rw [strictlyRefines, Bool.and_eq_true, Bool.not_eq_true']

/-- Neither of the two methods is at least as specific as the other. -/
def Incomparable (d : Definitions) (m n : MethodEntry) : Prop :=
  d.refines m n = false ∧ d.refines n m = false

/-- What is no more specific than a method does not refine it either, unless the two are equally
specific or cannot be compared. -/
theorem incomparable_of_not_strictly (kept : d.strictlyRefines m n = false)
    (other : d.refines n m = false) : d.Incomparable m n := by
  refine ⟨?_, other⟩
  cases refined : d.refines m n with
  | false => rfl
  | true =>
    rw [strictlyRefines_iff.2 ⟨refined, other⟩] at kept
    cases kept

end Refinement

section Choice

variable {ms : List MethodEntry} {m n : MethodEntry} {size : Nat}

theorem mostSpecific?_concat (ms : List MethodEntry) (n : MethodEntry) :
    d.mostSpecific? (ms ++ [n]) = match d.mostSpecific? ms with
      | some b => if d.strictlyRefines b n then some b else some n
      | none => some n := by
  rw [mostSpecific?, List.foldl_append]
  rfl

theorem mostSpecific?_isSome (ms : List MethodEntry) :
    (d.mostSpecific? ms).isSome = !ms.isEmpty := by
  induction ms using List.reverseRecOn with
  | nil => rfl
  | append_singleton ms n _ =>
    rw [mostSpecific?_concat]
    cases d.mostSpecific? ms with
    | none => simp
    | some b => dsimp only; split <;> simp

/-- A candidate is chosen over another one, or against it. -/
theorem mostSpecific?_concat_cases (chosen : d.mostSpecific? (ms ++ [n]) = some m) :
    (d.mostSpecific? ms = some m ∧ d.strictlyRefines m n = true) ∨
      (n = m ∧ ∀ b, d.mostSpecific? ms = some b → d.strictlyRefines b m = false) := by
  rw [mostSpecific?_concat] at chosen
  cases best : d.mostSpecific? ms with
  | none =>
    rw [best] at chosen
    exact .inr ⟨Option.some.inj chosen, nofun⟩
  | some b =>
    rw [best] at chosen
    dsimp only at chosen
    split at chosen
    · rename_i refined
      cases chosen
      exact .inl ⟨rfl, refined⟩
    · rename_i kept
      cases chosen
      refine .inr ⟨rfl, ?_⟩
      rintro b' ⟨⟩
      exact Bool.not_eq_true _ ▸ kept

/-- Whatever comes after the choice is less specific. -/
theorem mostSpecific?_splits (chosen : d.mostSpecific? ms = some m) :
    ∃ before after, ms = before ++ m :: after ∧ ∀ n ∈ after, d.strictlyRefines m n = true := by
  induction ms using List.reverseRecOn with
  | nil => cases chosen
  | append_singleton ms n ih =>
    rcases mostSpecific?_concat_cases chosen with ⟨earlier, refined⟩ | ⟨rfl, -⟩
    · obtain ⟨before, after, rfl, less⟩ := ih earlier
      refine ⟨before, after ++ [n], by simp, fun k member => ?_⟩
      rcases List.mem_append.1 member with old | last
      · exact less k old
      · exact List.mem_singleton.1 last ▸ refined
    · exact ⟨ms, [], rfl, nofun⟩

/-- The choice is at least as specific as a candidate, unless one that is has been followed by one
that it cannot be compared with. -/
theorem mostSpecific?_refines (sizes : ∀ n ∈ ms, n.arity = size)
    (chosen : d.mostSpecific? ms = some m) (member : n ∈ ms) : d.refines m n = true ∨
      ∃ a b, [a, b].Sublist ms ∧ d.refines a n = true ∧ d.Incomparable a b := by
  induction ms using List.reverseRecOn generalizing m with
  | nil => cases member
  | append_singleton ms k ih =>
    have sizes' : ∀ n ∈ ms, n.arity = size := fun n old => sizes n (List.mem_append_left _ old)
    have last : k.arity = size := sizes k (List.mem_append_right _ List.mem_cons_self)
    rcases List.mem_append.1 member with old | new
    · obtain ⟨b, best⟩ : ∃ b, d.mostSpecific? ms = some b := by
        rw [← Option.isSome_iff_exists, mostSpecific?_isSome]
        cases ms with
        | nil => cases old
        | cons => rfl
      rcases ih sizes' best old with refined | ⟨a, c, pair, more, apart⟩
      · rcases mostSpecific?_concat_cases chosen with ⟨earlier, -⟩ | ⟨rfl, above⟩
        · rw [best] at earlier
          cases earlier
          exact .inl refined
        · cases still : d.refines k n with
          | true => exact .inl rfl
          | false =>
            have inside : b ∈ ms := mostSpecific?_mem best
            have other : d.refines k b = false := by
              cases back : d.refines k b with
              | false => rfl
              | true =>
                rw [refines_trans (last.trans (sizes' b inside).symm)
                  ((sizes' b inside).trans (sizes' n old).symm) back refined] at still
                cases still
            refine .inr ⟨b, k, ?_, refined, incomparable_of_not_strictly (above b best) other⟩
            exact (List.singleton_sublist.2 inside).append (.refl [k])
      · exact .inr ⟨a, c, pair.trans (List.sublist_append_left _ _), more, apart⟩
    · obtain rfl := List.mem_singleton.1 new
      rcases mostSpecific?_concat_cases chosen with ⟨-, refined⟩ | ⟨rfl, -⟩
      · exact .inl (strictlyRefines_iff.1 refined).1
      · exact .inl (refines_refl n)

/-- A candidate is more specific than the choice only if it, or one that is so too, stands before the
choice and has been followed by one that it cannot be compared with. -/
theorem mostSpecific?_surpassed (sizes : ∀ n ∈ ms, n.arity = size)
    (chosen : d.mostSpecific? ms = some m) (member : n ∈ ms)
    (surpassed : d.strictlyRefines n m = true) :
    ∃ a b, [a, b, m].Sublist ms ∧ d.strictlyRefines a m = true ∧ d.Incomparable a b := by
  obtain ⟨more, notLess⟩ := strictlyRefines_iff.1 surpassed
  obtain ⟨a, b, pair, refined, apart⟩ :=
    (mostSpecific?_refines sizes chosen member).resolve_left (by simp [notLess])
  have arity {k : MethodEntry} (there : k ∈ ms) : k.arity = m.arity :=
    (sizes k there).trans (sizes m (mostSpecific?_mem chosen)).symm
  have aInside : a ∈ ms := pair.subset List.mem_cons_self
  have bInside : b ∈ ms := pair.subset (by simp)
  have above : d.strictlyRefines a m = true := by
    refine strictlyRefines_iff.2
      ⟨refines_trans ((arity aInside).trans (arity member).symm) (arity member) refined more, ?_⟩
    cases back : d.refines m a with
    | false => rfl
    | true =>
      rw [refines_trans (arity aInside).symm ((arity aInside).trans (arity member).symm) back
        refined] at notLess
      cases notLess
  obtain ⟨before, after, rfl, less⟩ := mostSpecific?_splits chosen
  refine ⟨a, b, ?_, above, apart⟩
  -- Neither of the two stands at the choice or behind it, where all is less specific than it.
  have early : ∀ k ∈ [a, b], k ∉ m :: after := by
    intro k which late
    have below : d.refines m k = true := by
      rcases List.mem_cons.1 late with rfl | later
      · exact refines_refl k
      · exact (strictlyRefines_iff.1 (less k later)).1
    simp only [List.mem_cons, List.not_mem_nil, or_false] at which
    rcases which with rfl | rfl
    · rw [(strictlyRefines_iff.1 above).2] at below
      cases below
    · have through := refines_trans (arity aInside) (arity bInside).symm
        (strictlyRefines_iff.1 above).1 below
      rw [apart.1] at through
      cases through
  obtain ⟨first, second, split, inBefore, inAfter⟩ := List.sublist_append_iff.1 pair
  have none : second = [] := List.eq_nil_iff_forall_not_mem.2 fun k late =>
    early k (split ▸ List.mem_append_right first late) (inAfter.subset late)
  rw [none, List.append_nil] at split
  have whole := (split ▸ inBefore).append (List.singleton_sublist.2 (List.mem_cons_self (a := m) (l := after)))
  exact whole

end Choice

section Order

/-- Methods are listed in the order in which they are defined. -/
structure Ordered (d : Definitions) : Prop where
  classes : ∀ c ∈ d.classes, c.methods.Pairwise (·.val < ·.val)
  globals : d.globals.Pairwise (·.val < ·.val)

theorem method?_lt {id : MethodId} {m : MethodEntry} (found : d.method? id = some m) :
    id.val < d.methods.size := (Array.getElem?_eq_some_iff.1 found).1

theorem openClass_ordered (c : ClassDef) (ordered : d.Ordered) : (d.openClass c).Ordered := by
  rw [openClass]
  split
  · exact ordered
  · refine ⟨List.forall_mem_append.2 ⟨ordered.classes, ?_⟩, ordered.globals⟩
    exact List.forall_mem_singleton.2 .nil

theorem enterMethod_ordered (owner : Option String) (m : MethodDef) (consistent : d.Consistent)
    (ordered : d.Ordered) : (d.enterMethod owner m).Ordered := by
  have last {ids : List MethodId} (sorted : ids.Pairwise (·.val < ·.val))
      (known : ∀ id ∈ ids, ∃ m, d.method? id = some m) :
      (ids ++ [(⟨d.methods.size⟩ : MethodId)]).Pairwise (·.val < ·.val) := by
    refine List.pairwise_append.2 ⟨sorted, List.pairwise_singleton _ _, fun id member new here => ?_⟩
    obtain ⟨m, found⟩ := known id member
    exact List.mem_singleton.1 here ▸ method?_lt found
  constructor
  · intro c member
    obtain ⟨c', listed, rfl⟩ := List.mem_map.1 member
    split
    · exact last (ordered.classes c' listed) fun id there =>
        (consistent.owned c' listed id there).imp fun _ => And.left
    · exact ordered.classes c' listed
  · rw [enterMethod]
    dsimp only
    split
    · exact last ordered.globals fun id there => (consistent.ownerless id there).imp fun _ => And.left
    · exact ordered.globals

theorem enterMethods_ordered (owner : Option String) (ms : List MethodDef)
    (consistent : d.Consistent) (ordered : d.Ordered) :
    (ms.foldl (fun d m => d.enterMethod owner m) d).Ordered := by
  induction ms generalizing d with
  | nil => exact ordered
  | cons m ms ih =>
    exact ih (enterMethod_consistent owner m consistent)
      (enterMethod_ordered owner m consistent ordered)

theorem enterStatement_ordered (e : Expr) (consistent : d.Consistent) (ordered : d.Ordered) :
    (d.enterStatement e).Ordered := by
  rw [enterStatement]
  split
  · exact enterMethod_ordered none _ consistent ordered
  · exact enterMethods_ordered _ _ (openClass_consistent _ consistent) (openClass_ordered _ ordered)
  all_goals exact ⟨ordered.classes, ordered.globals⟩

theorem ofBodies_ordered {bodies : List (List Expr)} (collected : ofBodies bodies = .ok d) :
    d.Ordered := by
  have empty : builtin.Ordered := by
    refine ⟨fun c member => ?_, .nil⟩
    obtain ⟨entry, -, rfl⟩ := List.mem_map.1 member
    exact .nil
  -- New numbers are the largest because the old ones are those of entries.
  have both : d.Consistent ∧ d.Ordered :=
    ofBodies_kept (P := fun d => d.Consistent ∧ d.Ordered) ⟨builtin_consistent, empty⟩
      (fun _ e before => ⟨enterStatement_consistent e before.1,
        enterStatement_ordered e before.1 before.2⟩) collected
  exact both.2

theorem Consistent.sorted (consistent : d.Consistent) {ids : List MethodId}
    (sorted : ids.Pairwise (·.val < ·.val)) :
    (ids.filterMap d.method?).Pairwise (·.id.val < ·.id.val) := by
  refine List.pairwise_filterMap.2 (sorted.imp fun {i j} before m found n found' => ?_)
  rw [consistent.method?_id found, consistent.method?_id found']
  exact before

theorem methodsOf_sorted (consistent : d.Consistent) (ordered : d.Ordered) (c : String) :
    (d.methodsOf c).Pairwise (·.id.val < ·.id.val) := by
  rw [methodsOf]
  split
  · rename_i entry found
    exact consistent.sorted (ordered.classes entry (List.mem_of_find?_eq_some found))
  · exact .nil

end Order

section Levels

variable {level : List MethodEntry} {m n : MethodEntry}

/-- Among the methods at hand the message can be answered by this one, and the method yields just when
a block is given if any that can answer does. -/
structure Eligible (d : Definitions) (msg : Message) (level : List MethodEntry) (m : MethodEntry) :
    Prop where
  listed : m ∈ level
  applicable : d.isApplicable msg m = true
  block : (∃ n ∈ level, d.isApplicable msg n = true ∧ n.yields = msg.hasBlock) →
    m.yields = msg.hasBlock

theorem mem_pool : m ∈ d.pool msg level ↔ d.Eligible msg level m := by
  have matching : (level.filter (d.isApplicable msg)).filter (fun m => m.yields == msg.hasBlock) = [] ↔
      ¬ ∃ n ∈ level, d.isApplicable msg n = true ∧ n.yields = msg.hasBlock := by
    simp only [List.filter_eq_nil_iff, List.mem_filter, beq_iff_eq, not_exists, not_and, and_imp]
  rw [pool]
  split
  · rename_i empty
    have nobody := matching.1 (List.isEmpty_iff.1 empty)
    rw [List.mem_filter]
    exact ⟨fun there => ⟨there.1, there.2, fun some => absurd some nobody⟩,
      fun eligible => ⟨eligible.listed, eligible.applicable⟩⟩
  · rename_i somebody
    have there : ∃ n ∈ level, d.isApplicable msg n = true ∧ n.yields = msg.hasBlock := by
      by_contra nobody
      exact somebody (List.isEmpty_iff.2 (matching.2 nobody))
    rw [List.mem_filter, List.mem_filter, beq_iff_eq]
    exact ⟨fun there => ⟨there.1.1, there.1.2, fun _ => there.2⟩,
      fun eligible => ⟨⟨eligible.listed, eligible.applicable⟩, eligible.block there⟩⟩

theorem pool_sublist (d : Definitions) (msg : Message) (level : List MethodEntry) :
    (d.pool msg level).Sublist level := by
  rw [pool]
  split
  · exact List.filter_sublist
  · exact List.filter_sublist.trans List.filter_sublist

/-- Nothing is chosen only where nothing can answer. -/
theorem choose?_eq_none (none : d.choose? msg level = none) : ∀ n ∈ level, d.isApplicable msg n = false := by
  intro n member
  by_contra applicable
  rw [choose?, Option.map_eq_none_iff, ← Option.not_isSome_iff_eq_none, mostSpecific?_isSome] at none
  have empty : d.pool msg level = [] := by simpa using none
  rw [pool] at empty
  split at empty
  · exact absurd (List.mem_filter.2 ⟨member, by simpa using applicable⟩) (empty ▸ List.not_mem_nil)
  · rename_i somebody
    exact somebody (List.isEmpty_iff.2 empty)

theorem exists_choose? (member : m ∈ level) (applicable : d.isApplicable msg m = true) :
    ∃ id, d.choose? msg level = some id := by
  by_contra nobody
  rw [← Option.ne_none_iff_exists', not_not] at nobody
  rw [choose?_eq_none nobody m member] at applicable
  cases applicable

/-- The method is the one that a message is answered with among those of a level. -/
structure Chosen (d : Definitions) (msg : Message) (level : List MethodEntry) (m : MethodEntry) :
    Prop where
  eligible : d.Eligible msg level m
  /-- All that is defined later is less specific. -/
  later : ∀ n, d.Eligible msg level n → m.id.val < n.id.val → d.strictlyRefines m n = true
  /-- It is the last one with its restrictions. -/
  latest : ∀ n, d.Eligible msg level n →
    n.parameters.map d.restriction? = m.parameters.map d.restriction? → n.id.val ≤ m.id.val
  /-- Another one is more specific just if one that is so has been given up for a third. -/
  surpassed : (∃ n, d.Eligible msg level n ∧ d.strictlyRefines n m = true) ↔
    ∃ a b, d.Eligible msg level a ∧ d.Eligible msg level b ∧ a.id.val < b.id.val ∧
      b.id.val < m.id.val ∧ d.strictlyRefines a m = true ∧ d.Incomparable a b

theorem choose?_chosen (sorted : level.Pairwise (·.id.val < ·.id.val)) {id : MethodId}
    (chosen : d.choose? msg level = some id) : ∃ m, m.id = id ∧ d.Chosen msg level m := by
  obtain ⟨m, best, rfl⟩ := Option.map_eq_some_iff.1 chosen
  have sorted := sorted.sublist (pool_sublist d msg level)
  have sizes : ∀ n ∈ d.pool msg level, n.arity = msg.arguments.length := fun n member =>
    arity_of_applicable (mem_pool.1 member).applicable
  have later : ∀ n, d.Eligible msg level n → m.id.val < n.id.val → d.strictlyRefines m n = true := by
    intro n eligible after
    obtain ⟨before, rest, split, less⟩ := mostSpecific?_splits best
    have member := mem_pool.2 eligible
    rw [split] at member sorted
    obtain ⟨-, beyond, earlier⟩ := List.pairwise_append.1 sorted
    rcases List.mem_append.1 member with there | here
    · have : n.id.val < m.id.val := earlier n there m List.mem_cons_self
      omega
    · rcases List.mem_cons.1 here with rfl | there
      · omega
      · exact less n there
  refine ⟨m, rfl, mem_pool.1 (mostSpecific?_mem best), later, fun n eligible same => ?_, ?_, ?_⟩
  · by_contra after
    have less := (strictlyRefines_iff.1 (later n eligible (Nat.lt_of_not_le after))).2
    rw [refines_of_restrictions same] at less
    cases less
  · rintro ⟨n, eligible, above⟩
    obtain ⟨a, b, triple, more, apart⟩ :=
      mostSpecific?_surpassed sizes best (mem_pool.2 eligible) above
    have ordered := sorted.sublist triple
    simp only [List.pairwise_cons, List.mem_cons, List.not_mem_nil, or_false, forall_eq_or_imp,
      forall_eq] at ordered
    exact ⟨a, b, mem_pool.1 (triple.subset (by simp)), mem_pool.1 (triple.subset (by simp)),
      ordered.1.1, ordered.2.1, more, apart⟩
  · rintro ⟨a, b, eligible, -, -, -, more, -⟩
    exact ⟨a, eligible, more⟩

/-- The methods among which the one that answers a message is sought: those of the nearest class that
has one, or else, if no receiver is written and there is no such primitive either, the functions of
the top level. -/
inductive Level (d : Definitions) (msg : Message) : List MethodEntry → Prop
  | inClass {start c : String} {before after : List String}
    (receiver : msg.receiver.className? = some start)
    (chain : d.ancestors start = before ++ c :: after)
    (nearer : ∀ e ∈ before, ∀ n ∈ d.methodsOf e, d.isApplicable msg n = false) :
    Level d msg (d.methodsOf c)
  | global (toSelf : msg.toSelf = true)
    (noClass : ∀ start, msg.receiver.className? = some start →
      ∀ e ∈ d.ancestors start, ∀ n ∈ d.methodsOf e, d.isApplicable msg n = false)
    (noPrimitive : Primitive.resolve? msg.receiver msg.name msg.arguments = none) :
    Level d msg d.globalMethods

theorem mem_level_method? (consistent : d.Consistent) (found : d.Level msg level) (member : m ∈ level) :
    d.method? m.id = some m := by
  have listed : ∃ ids : List MethodId, m ∈ ids.filterMap d.method? := by
    cases found with
    | inClass =>
      rw [methodsOf] at member
      split at member
      · exact ⟨_, member⟩
      · cases member
    | global => exact ⟨_, member⟩
  obtain ⟨ids, member⟩ := listed
  obtain ⟨id, -, entry⟩ := List.mem_filterMap.1 member
  exact consistent.method?_id entry ▸ entry

theorem methodInChain?_eq_none (none : d.methodInChain? msg = none) {start : String}
    (receiver : msg.receiver.className? = some start) :
    ∀ e ∈ d.ancestors start, ∀ n ∈ d.methodsOf e, d.isApplicable msg n = false := by
  intro e member
  rw [methodInChain?, receiver, Option.bind_some, List.findSome?_eq_none_iff] at none
  exact choose?_eq_none (none e member)

/-- A method that answers a message stands on the nearest class with one that can answer it, or at the
top level if no receiver is written and no class and no primitive answers. There it yields as the
message asks for if any does that can answer, it is the last one with its restrictions, and it is more
specific than all that come later. Another one is more specific than it just if some such one stands
before it and is followed, still before it, by one that it cannot be compared with. -/
theorem dispatch_chooses_overload {bodies : List (List Expr)} (collected : ofBodies bodies = .ok d)
    {id : MethodId} (dispatched : d.dispatch? msg = some (.method id)) :
    ∃ level m, d.Level msg level ∧ d.method? id = some m ∧ d.Chosen msg level m := by
  have consistent := ofBodies_consistent collected
  have ordered := ofBodies_ordered collected
  have answers {level : List MethodEntry} (found : d.Level msg level)
      (sorted : level.Pairwise (·.id.val < ·.id.val)) (chosen : d.choose? msg level = some id) :
      ∃ level m, d.Level msg level ∧ d.method? id = some m ∧ d.Chosen msg level m := by
    obtain ⟨m, rfl, best⟩ := choose?_chosen sorted chosen
    exact ⟨level, m, found, mem_level_method? consistent found best.eligible.listed, best⟩
  rcases dispatch?_cases dispatched with ⟨_, ⟨⟩, -⟩ | ⟨_, _, ⟨⟩⟩ | ⟨_, ⟨⟩, chosen⟩ | ⟨_, ⟨⟩, -⟩ |
    ⟨_, ⟨⟩, toSelf, noClass, noPrimitive, chosen⟩
  · rw [methodInChain?, Option.bind_eq_some_iff] at chosen
    obtain ⟨start, receiver, chosen⟩ := chosen
    obtain ⟨before, c, after, chain, chosen, nearer⟩ := List.findSome?_eq_some_iff.1 chosen
    refine answers (.inClass receiver chain fun e member => ?_)
      (methodsOf_sorted consistent ordered c) chosen
    exact choose?_eq_none (nearer e member)
  · exact answers (.global toSelf (fun start => methodInChain?_eq_none noClass) noPrimitive)
      (consistent.sorted ordered.globals) chosen

/-- The first function is more specific than the third, but the second is comparable with neither. -/
def incomparableText : String :=
  "def pair(a : Int, b : Value)\n  1\nend\ndef pair(a : Value, b : Int)\n  2\nend\n" ++
    "def pair(a : Number, b : Value)\n  3\nend\n"

/-- A message of two numbers to the functions of that name. -/
def pairMessage : Message := ⟨Ty.main, "pair", [Ty.int, Ty.int], false, true⟩

theorem incomparableText_overload : ∃ m next d level k,
    Module.read ⟨0⟩ incomparableText = .ok (m, next) ∧ ofBodies [m.body] = .ok d ∧
      d.dispatch? pairMessage = some (.method ⟨2⟩) ∧ d.method? ⟨2⟩ = some k ∧
        d.Level pairMessage level ∧ d.Chosen pairMessage level k ∧
          ∃ n, d.Eligible pairMessage d.globalMethods n ∧ d.strictlyRefines n k = true := by
  obtain ⟨m, next, d, read, collected, holds⟩ := exists_collected incomparableText
    (fun d => d.dispatch? pairMessage == some (.method ⟨2⟩) &&
      (d.pool pairMessage d.globalMethods).any fun n =>
        (d.method? ⟨2⟩).any fun k => d.strictlyRefines n k)
    (by decide +kernel)
  simp only [Bool.and_eq_true, beq_iff_eq, List.any_eq_true] at holds
  obtain ⟨dispatched, n, member, above⟩ := holds
  obtain ⟨level, k, found, entry, chosen⟩ := dispatch_chooses_overload collected dispatched
  rw [entry, Option.any_some] at above
  exact ⟨m, next, d, level, k, read, collected, dispatched, entry, found, chosen, n,
    mem_pool.1 member, above⟩

end Levels

end TypedBlocks.Definitions

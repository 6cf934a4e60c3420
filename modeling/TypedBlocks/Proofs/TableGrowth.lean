import TypedBlocks.Inference.Tables
import TypedBlocks.Proofs.TypeUnions

/-!
# Growth of tables

What a pass enters in its tables never replaces anything: an entry keeps its key and its place, its
type is extended by joins, and new entries come in behind. So tables that are the same after they
have grown have not changed at all.
-/
namespace TypedBlocks

namespace Ty

/-- The second type results from the first by joins with further types. -/
inductive Extended (t : Ty) : Ty → Prop
  | refl : Extended t t
  | join {u : Ty} (earlier : Extended t u) (w : Ty) : Extended t (u.join w)

/-- A missing type can become any, and one that is there is extended. -/
def OptionExtended : Option Ty → Option Ty → Prop
  | none, _ => True
  | some t, some u => Extended t u
  | some _, none => False

/-- There is a member, members differ, and a single one is the type itself. -/
structure Reduced (t : Ty) : Prop where
  some : t.members ≠ []
  different : t.members.Pairwise fun m n => ¬ m == n
  collapsed : t.collapse = t

variable {t u w : Ty}

theorem Extended.trans (first : Extended t u) (second : Extended u w) : Extended t w := by
  induction second with
  | refl => exact first
  | join _ x ih => exact ih.join x

theorem OptionExtended.refl (a : Option Ty) : OptionExtended a a := by
  cases a with
  | none => trivial
  | some t => exact Extended.refl

theorem OptionExtended.trans {a b c : Option Ty} (first : OptionExtended a b)
    (second : OptionExtended b c) : OptionExtended a c := by
  cases a with
  | none => trivial
  | some t =>
    cases b with
    | none => cases first
    | some u =>
      cases c with
      | none => cases second
      | some w => exact Extended.trans first second

theorem optionExtended_merge (a b : Option Ty) : OptionExtended a (mergeOption a b) := by
  cases a with
  | none => trivial
  | some t =>
    cases b with
    | none => exact Extended.refl
    | some u => exact Extended.refl.join u

/-- A reduced type is the union of its members, or the only one. -/
theorem Reduced.eq_collapse (reduced : t.Reduced) : t = (union t.members).collapse := by
  have collapsed := reduced.collapsed
  cases t with
  | union ts => exact collapsed.symm
  | _ => rfl

theorem Reduced.eq_of_members (left : t.Reduced) (right : u.Reduced)
    (same : t.members = u.members) : t = u := by
  rw [left.eq_collapse, right.eq_collapse, same]

/-- Different types in a row are kept in this order. -/
theorem foldl_insertNew_eq {ts us : List Ty}
    (different : (ts ++ us).Pairwise fun m n => ¬ m == n) : us.foldl insertNew ts = ts ++ us := by
  induction us generalizing ts with
  | nil => simp
  | cons m us ih =>
    have new : ts.any (· == m) = false := by
      rw [List.any_eq_false]
      intro x member
      rw [List.pairwise_append] at different
      exact different.2.2 x member m List.mem_cons_self
    have apart : ((ts ++ [m]) ++ us).Pairwise fun m n => ¬ m == n := by simpa using different
    rw [List.foldl_cons, insertNew, new, if_neg Bool.false_ne_true, ih apart]
    simp

theorem insertNew_extends (ts : List Ty) (m : Ty) : ts <+: insertNew ts m := by
  rw [insertNew]
  split
  · exact List.prefix_refl _
  · exact List.prefix_append _ _

theorem foldl_insertNew_extends (us ts : List Ty) : ts <+: us.foldl insertNew ts := by
  induction us generalizing ts with
  | nil => exact List.prefix_refl _
  | cons m us ih => exact (insertNew_extends ts m).trans (ih _)

/-- A join keeps the members at their places, whatever is joined. -/
theorem Reduced.prefix_join (reduced : t.Reduced) (w : Ty) :
    t.members <+: (t.join w).members ∧ (t.join w).Reduced := by
  have own : t.members.foldl insertNew [] = t.members :=
    foldl_insertNew_eq (by simpa using reduced.different)
  have split : distinctMembers [t, w] = w.members.foldl insertNew t.members := by
    simp only [distinctMembers, distinct, List.flatMap_cons, List.flatMap_nil, List.append_nil,
      List.foldl_append, own]
  have different : (distinctMembers [t, w]).Pairwise fun m n => ¬ m == n :=
    foldl_insertNew_different List.Pairwise.nil
  have longer : t.members <+: distinctMembers [t, w] :=
    split ▸ foldl_insertNew_extends w.members t.members
  by_cases single : ∃ m, distinctMembers [t, w] = [m]
  · obtain ⟨m, only⟩ := single
    have alone : t.members = [m] := by
      obtain ⟨x, xs, first⟩ := List.exists_cons_of_ne_nil reduced.some
      rw [only, first, List.cons_prefix_cons, List.prefix_nil] at longer
      rw [first, longer.1, longer.2]
    have itself : t.join w = t := by rw [join, unionOf, only, reduced.eq_collapse, alone]
    rw [itself]
    exact ⟨List.prefix_refl _, reduced⟩
  · obtain ⟨-, -, whole⟩ := collapse_many (t := .union (distinctMembers [t, w])) single
    have same : t.join w = .union (distinctMembers [t, w]) := whole
    rw [same]
    exact ⟨longer, fun empty => reduced.some (List.prefix_nil.1 (empty ▸ longer)), different, whole⟩

theorem Reduced.prefix_extended (reduced : t.Reduced) (grown : Extended t u) :
    t.members <+: u.members ∧ u.Reduced := by
  induction grown with
  | refl => exact ⟨List.prefix_refl _, reduced⟩
  | join _ w ih =>
    obtain ⟨longer, still⟩ := ih
    obtain ⟨longer', still'⟩ := still.prefix_join w
    exact ⟨longer.trans longer', still'⟩

/-- An extension with no more members changes nothing. -/
theorem Reduced.eq_of_extended (reduced : t.Reduced) (grown : Extended t u)
    (sizes : u.members.length ≤ t.members.length) : u = t := by
  obtain ⟨longer, still⟩ := reduced.prefix_extended grown
  exact still.eq_of_members reduced (longer.eq_of_length_le sizes).symm

theorem Reduced.antisymm (reduced : t.Reduced) (grown : Extended t u) (back : Extended u t) :
    u = t := by
  obtain ⟨-, still⟩ := reduced.prefix_extended grown
  exact reduced.eq_of_extended grown (still.prefix_extended back).1.length_le

/-- An extension that is the same as the type changes nothing. -/
theorem Reduced.eq_of_same (reduced : t.Reduced) (grown : Extended t u) (same : u == t) :
    u = t := by
  obtain ⟨longer, still⟩ := reduced.prefix_extended grown
  refine reduced.eq_of_extended grown ?_
  by_cases single : ∃ m, u.members = [m]
  · obtain ⟨m, only⟩ := single
    rw [only]
    exact List.length_pos_iff.2 reduced.some
  · obtain ⟨us, rfl, -⟩ := collapse_many single
    rw [beq_iff_same, Ty.same.eq_4 t us fun m only => single ⟨m, only⟩, reduced.collapsed] at same
    cases t with
    | union ts =>
      simp only [Bool.and_eq_true, beq_iff_eq] at same
      exact Nat.le_of_eq same.1
    | _ => cases same

end Ty

namespace Inference

section Entries

variable {α β : Type} {R : β → β → Prop}

/-- Entries keep their keys and places while their values change by a relation, and new entries come
in behind. -/
inductive Grown (R : β → β → Prop) : List (α × β) → List (α × β) → Prop
  | new (entries : List (α × β)) : Grown R [] entries
  | kept {k : α} {a b : β} {es fs : List (α × β)} (value : R a b) (rest : Grown R es fs) :
    Grown R ((k, a) :: es) ((k, b) :: fs)

variable {es fs gs : List (α × β)}

theorem Grown.refl (refl : ∀ a, R a a) (es : List (α × β)) : Grown R es es := by
  induction es with
  | nil => exact .new []
  | cons e es ih => exact .kept (refl e.2) ih

theorem Grown.trans (trans : ∀ {a b c}, R a b → R b c → R a c) (first : Grown R es fs)
    (second : Grown R fs gs) : Grown R es gs := by
  induction first generalizing gs with
  | new fs => exact .new gs
  | kept value _ ih =>
    cases second with
    | kept value' rest' => exact .kept (trans value value') (ih rest')

theorem Grown.length_le (grown : Grown R es fs) : es.length ≤ fs.length := by
  induction grown with
  | new fs => exact Nat.zero_le _
  | kept _ _ ih => exact Nat.succ_le_succ ih

/-- The two lists have grown into each other, so neither has grown. -/
theorem Grown.antisymm (grown : Grown R es fs) (back : Grown R fs es)
    (values : ∀ e ∈ es, ∀ b, R e.2 b → R b e.2 → b = e.2) : fs = es := by
  induction grown with
  | new fs =>
    cases back with
    | new => rfl
  | kept value _ ih =>
    cases back with
    | kept value' rest' =>
      rw [List.forall_mem_cons] at values
      rw [values.1 _ value value', ih rest' values.2]

variable [BEq α]

/-- An entry is found where it was, with its value changed by the relation. -/
theorem Grown.lookup (grown : Grown R es fs) {k : α} {a : β} (found : es.lookup k = some a) :
    ∃ b, fs.lookup k = some b ∧ R a b := by
  induction grown with
  | new fs => cases found
  | kept value _ ih =>
    rw [List.lookup_cons] at found ⊢
    split at found
    · cases found
      exact ⟨_, rfl, value⟩
    · exact ih found

end Entries

section Updates

variable {α β : Type} [BEq α] {key : α} {new : β} {change : β → β} {es : List (α × β)}

theorem lookup_forall {P : β → Prop} (each : ∀ e ∈ es, P e.2) {b : β}
    (found : es.lookup key = some b) : P b := by
  induction es with
  | nil => cases found
  | cons e es ih =>
    rw [List.forall_mem_cons] at each
    rw [List.lookup_cons] at found
    split at found
    · cases found
      exact each.1
    · exact ih each.2 found

theorem lookup_mem {b : β} (found : es.lookup key = some b) :
    ∃ k, (k, b) ∈ es ∧ (key == k) = true := by
  induction es with
  | nil => cases found
  | cons e es ih =>
    rcases e with ⟨k, w⟩
    rw [List.lookup_cons] at found
    split at found
    · rename_i same
      cases found
      exact ⟨k, List.mem_cons_self, same⟩
    · obtain ⟨k', member, same⟩ := ih found
      exact ⟨k', List.mem_cons_of_mem _ member, same⟩

/-- Change the value at a key, or enter the key with a new value behind all others. -/
def updateAt (key : α) (new : β) (change : β → β) : List (α × β) → List (α × β)
  | [] => [(key, new)]
  | (k, b) :: es => if k == key then (k, change b) :: es else (k, b) :: updateAt key new change es

theorem extendAt_eq (key : α) (t : Ty) : extendAt key t = updateAt key t (·.join t) := by
  funext es
  induction es with
  | nil => rfl
  | cons e es ih => rw [extendAt, updateAt, ih]

theorem extendResultIn_eq (key : Instantiation) (t : Option Ty) :
    Tables.extendResultIn key t = updateAt key t (Ty.mergeOption · t) := by
  funext es
  induction es with
  | nil => rfl
  | cons e es ih => rw [Tables.extendResultIn, updateAt, ih]

theorem extendLayoutIn_eq (c name : String) (t : Ty) : Tables.extendLayoutIn c name t =
    updateAt c (Tables.extendVarsOf name t []) (Tables.extendVarsOf name t) := by
  funext ls
  induction ls with
  | nil => rfl
  | cons l ls ih => rw [Tables.extendLayoutIn, updateAt, ih]

theorem bindVar_eq (name : String) (t : Ty) : Ty.bindVar name t = updateAt name t fun _ => t := by
  funext vs
  induction vs with
  | nil => rfl
  | cons v vs ih => rw [Ty.bindVar, updateAt, ih]

/-- An update leaves the entries as they were, but for the value at the key. -/
theorem updateAt_mem : ∀ f ∈ updateAt key new change es,
    f = (key, new) ∨ f ∈ es ∨ ∃ e ∈ es, f = (e.1, change e.2) := by
  induction es with
  | nil =>
    intro f member
    exact .inl (List.mem_singleton.1 member)
  | cons e es ih =>
    intro f member
    rw [updateAt] at member
    split at member
    · rcases List.mem_cons.1 member with rfl | later
      · exact .inr (.inr ⟨e, List.mem_cons_self, rfl⟩)
      · exact .inr (.inl (List.mem_cons_of_mem e later))
    · rcases List.mem_cons.1 member with rfl | later
      · exact .inr (.inl List.mem_cons_self)
      · rcases ih f later with new | old | ⟨e', there, same⟩
        · exact .inl new
        · exact .inr (.inl (List.mem_cons_of_mem e old))
        · exact .inr (.inr ⟨e', List.mem_cons_of_mem e there, same⟩)

/-- No key is entered twice. -/
theorem updateAt_apart (apart : es.Pairwise fun e f => ¬ (e.1 == f.1) = true) :
    (updateAt key new change es).Pairwise fun e f => ¬ (e.1 == f.1) = true := by
  induction es with
  | nil => exact List.pairwise_singleton _ _
  | cons e es ih =>
    rw [List.pairwise_cons] at apart
    rw [updateAt]
    split
    · exact List.pairwise_cons.2 apart
    · rename_i other
      refine List.pairwise_cons.2 ⟨fun f member => ?_, ih apart.2⟩
      rcases updateAt_mem f member with rfl | old | ⟨e', there, rfl⟩
      · exact other
      · exact apart.1 f old
      · exact apart.1 e' there

theorem updateAt_grown {R : β → β → Prop} (refl : ∀ b, R b b) (step : ∀ b, R b (change b)) :
    Grown R es (updateAt key new change es) := by
  induction es with
  | nil => exact .new _
  | cons e es ih =>
    rw [updateAt]
    split
    · exact .kept (step e.2) (.refl refl es)
    · exact .kept (refl e.2) ih

end Updates

section Extensions

open Ty (Extended OptionExtended)

theorem extendAt_grown {α : Type} [BEq α] (key : α) (t : Ty) (entries : List (α × Ty)) :
    Grown Extended entries (extendAt key t entries) :=
  extendAt_eq key t ▸ updateAt_grown (fun _ => .refl) fun _ => .join .refl t

theorem extendResultIn_grown (key : Instantiation) (t : Option Ty)
    (entries : List (Instantiation × Option Ty)) :
    Grown OptionExtended entries (Tables.extendResultIn key t entries) :=
  extendResultIn_eq key t ▸ updateAt_grown .refl fun b => Ty.optionExtended_merge b t

theorem bindVar_grown {name : String} {t : Ty} {vars : List (String × Ty)}
    (wider : ∀ u, vars.lookup name = some u → Extended u t) :
    Grown Extended vars (Ty.bindVar name t vars) := by
  induction vars with
  | nil => exact .new _
  | cons v vars ih =>
    obtain ⟨n, u⟩ := v
    rw [Ty.bindVar]
    split
    · rename_i here
      have same : name == n := BEq.symm here
      exact .kept (wider u (by rw [List.lookup_cons, same])) (.refl (fun _ => .refl) vars)
    · rename_i other
      have apart : (name == n) = false := by
        rw [Bool.eq_false_iff]
        exact fun same => other (BEq.symm same)
      exact .kept .refl (ih fun w found => wider w (by rwa [List.lookup_cons, apart]))

theorem extendVarsOf_grown (name : String) (t : Ty) (vars : List (String × Ty)) :
    Grown Extended vars (Tables.extendVarsOf name t vars) := by
  rw [Tables.extendVarsOf]
  cases found : vars.lookup name with
  | none => exact bindVar_grown (by simp [found])
  | some u =>
    dsimp only
    split
    · exact .refl (fun _ => .refl) vars
    · refine bindVar_grown fun w here => ?_
      rw [found] at here
      cases here
      exact .join .refl t

theorem extendLayoutIn_grown (c name : String) (t : Ty)
    (layouts : List (String × List (String × Ty))) :
    Grown (Grown Extended) layouts (Tables.extendLayoutIn c name t layouts) :=
  extendLayoutIn_eq c name t ▸ updateAt_grown (.refl fun _ => .refl) (extendVarsOf_grown name t)

/-- Each table of the second has grown from that of the first. -/
structure Tables.Grows (ts us : Tables) : Prop where
  vars : Grown Extended ts.vars us.vars
  methods : Grown OptionExtended ts.methods us.methods
  layouts : Grown (Grown Extended) ts.layouts us.layouts
  globals : Grown Extended ts.globals us.globals
  constants : Grown Extended ts.constants us.constants

namespace Tables.Grows

theorem refl (ts : Tables) : ts.Grows ts :=
  ⟨.refl (fun _ => .refl) _, .refl .refl _, .refl (.refl fun _ => .refl) _, .refl (fun _ => .refl) _,
    .refl (fun _ => .refl) _⟩

theorem trans {ts us ws : Tables} (first : ts.Grows us) (second : us.Grows ws) : ts.Grows ws where
  vars := first.vars.trans Extended.trans second.vars
  methods := first.methods.trans OptionExtended.trans second.methods
  layouts := first.layouts.trans (Grown.trans Extended.trans) second.layouts
  globals := first.globals.trans Extended.trans second.globals
  constants := first.constants.trans Extended.trans second.constants

variable (ts : Tables)

theorem extendVar (key : ScopeVar) (t : Ty) : ts.Grows (ts.extendVar key t) :=
  { refl ts with vars := extendAt_grown key t ts.vars }

theorem extendGlobal (name : String) (t : Ty) : ts.Grows (ts.extendGlobal name t) :=
  { refl ts with globals := extendAt_grown name t ts.globals }

theorem extendConstant (name : String) (t : Ty) : ts.Grows (ts.extendConstant name t) :=
  { refl ts with constants := extendAt_grown name t ts.constants }

theorem extendResult (key : Instantiation) (t : Option Ty) : ts.Grows (ts.extendResult key t) :=
  { refl ts with methods := extendResultIn_grown key t ts.methods }

theorem extendLayout (c name : String) (t : Ty) : ts.Grows (ts.extendLayout c name t) :=
  { refl ts with layouts := extendLayoutIn_grown c name (bare t) ts.layouts }

end Tables.Grows

/-- All types in the tables are reduced, and no object binds a variable twice. -/
structure Tables.Reduced (ts : Tables) : Prop where
  vars : ∀ e ∈ ts.vars, e.2.Reduced
  methods : ∀ e ∈ ts.methods, ∀ t ∈ e.2, t.Reduced
  layouts : ∀ e ∈ ts.layouts, (e.2.map (·.1)).Nodup ∧ ∀ v ∈ e.2, v.2.Reduced
  globals : ∀ e ∈ ts.globals, e.2.Reduced
  constants : ∀ e ∈ ts.constants, e.2.Reduced

/-- Tables that have grown into each other are equal. -/
theorem Tables.Reduced.antisymm {ts us : Tables} (reduced : ts.Reduced) (grown : ts.Grows us)
    (back : us.Grows ts) : us = ts := by
  have option : ∀ a b : Option Ty, (∀ t ∈ a, t.Reduced) → OptionExtended a b →
      OptionExtended b a → b = a := by
    rintro (_ | t) (_ | u) left first second
    · rfl
    · cases second
    · cases first
    · rw [(left t rfl).antisymm first second]
  have vars := grown.vars.antisymm back.vars fun e member b => (reduced.vars e member).antisymm
  have methods := grown.methods.antisymm back.methods fun e member b =>
    option e.2 b (reduced.methods e member)
  have layouts := grown.layouts.antisymm back.layouts fun e member b first second =>
    first.antisymm second fun v inside w => ((reduced.layouts e member).2 v inside).antisymm
  have globals := grown.globals.antisymm back.globals fun e member b =>
    (reduced.globals e member).antisymm
  have constants := grown.constants.antisymm back.constants fun e member b =>
    (reduced.constants e member).antisymm
  cases ts
  cases us
  simp_all

theorem sameEntries_grown {α : Type} [BEq α] {es fs : List (α × Ty)}
    (reduced : ∀ e ∈ es, e.2.Reduced) (grown : Grown Extended es fs)
    (same : sameEntries fs es = true) : fs = es := by
  induction grown with
  | new fs =>
    cases fs with
    | nil => rfl
    | cons f fs => cases same
  | kept value _ ih =>
    rw [List.forall_mem_cons] at reduced
    simp only [sameEntries, Bool.and_eq_true] at same
    rw [ih reduced.2 same.2, reduced.1.eq_of_same value same.1.2]

theorem sameResults_grown {es fs : List (Instantiation × Option Ty)}
    (reduced : ∀ e ∈ es, ∀ t ∈ e.2, t.Reduced) (grown : Grown OptionExtended es fs)
    (same : Tables.sameResults fs es = true) : fs = es := by
  induction grown with
  | new fs =>
    cases fs with
    | nil => rfl
    | cons f fs => cases same
  | @kept k a b es fs value _ ih =>
    rw [List.forall_mem_cons] at reduced
    simp only [Tables.sameResults, Bool.and_eq_true] at same
    rw [ih reduced.2 same.2]
    cases a with
    | none =>
      cases b with
      | none => rfl
      | some u => cases same.1.2
    | some t =>
      cases b with
      | none => cases value
      | some u => rw [(reduced.1 t rfl).eq_of_same value same.1.2]

/-- An object type whose variables have grown and that is the same has not changed. -/
theorem sameVars_grown {c : String} {vs ws : List (String × Ty)} (once : (vs.map (·.1)).Nodup)
    (reduced : ∀ v ∈ vs, v.2.Reduced) (grown : Grown Extended vs ws)
    (same : Ty.object c ws == Ty.object c vs) : ws = vs := by
  obtain ⟨vs', whole, sizes, matched⟩ := (Ty.object_same_iff (Ty.isMember_object c vs)).1 same
  cases whole
  clear same
  suffices ∀ before, ((before ++ vs).map (·.1)).Nodup → ws.length = vs.length →
      (∀ v ∈ ws, ∃ t, (before ++ vs).lookup v.1 = some t ∧ v.2 == t) → ws = vs from
    this [] once sizes matched
  clear once sizes matched
  induction grown with
  | new ws => exact fun _ _ sizes _ => List.eq_nil_of_length_eq_zero sizes
  | @kept n t u vs ws value rest ih =>
    intro before once sizes matched
    rw [List.forall_mem_cons] at reduced matched
    obtain ⟨⟨t', found, same⟩, matched⟩ := matched
    have here : (before ++ (n, t) :: vs).lookup n = some t := lookup_of_mem once (by simp)
    rw [here] at found
    cases found
    have moved : before ++ (n, t) :: vs = (before ++ [(n, t)]) ++ vs := by simp
    rw [reduced.1.eq_of_same value same,
      ih reduced.2 (before ++ [(n, t)]) (moved ▸ once) (Nat.succ.inj sizes) (moved ▸ matched)]

theorem sameLayouts_grown {ls ms : List (String × List (String × Ty))}
    (reduced : ∀ e ∈ ls, (e.2.map (·.1)).Nodup ∧ ∀ v ∈ e.2, v.2.Reduced)
    (grown : Grown (Grown Extended) ls ms) (sizes : ms.length = ls.length)
    (same : (ms.zip ls).all (fun ((c, vars), (d, vars')) =>
      Ty.object c vars == Ty.object d vars') = true) : ms = ls := by
  induction grown with
  | new ms => exact List.eq_nil_of_length_eq_zero sizes
  | kept value _ ih =>
    rw [List.forall_mem_cons] at reduced
    simp only [List.zip_cons_cons, List.all_cons, Bool.and_eq_true] at same
    rw [sameVars_grown reduced.1.1 reduced.1.2 value same.1,
      ih reduced.2 (Nat.succ.inj sizes) same.2]

/-- Layouts that are the same after they have grown have not changed. -/
theorem Tables.Grows.layouts_eq {ts us : Tables} (grown : ts.Grows us) (reduced : ts.Reduced)
    (same : us.sameLayouts ts = true) : us.layouts = ts.layouts := by
  simp only [Tables.sameLayouts, Bool.and_eq_true, beq_iff_eq] at same
  exact sameLayouts_grown reduced.layouts grown.layouts same.1 same.2

/-- Tables that are the same after they have grown have not changed. -/
theorem Tables.Grows.eq_of_same {ts us : Tables} (grown : ts.Grows us) (reduced : ts.Reduced)
    (same : us.same ts = true) : us = ts := by
  simp only [Tables.same, Bool.and_eq_true] at same
  obtain ⟨⟨⟨⟨layouts, vars⟩, methods⟩, globals⟩, constants⟩ := same
  have sameLayouts := grown.layouts_eq reduced layouts
  have sameVars := sameEntries_grown reduced.vars grown.vars vars
  have sameMethods := sameResults_grown reduced.methods grown.methods methods
  have sameGlobals := sameEntries_grown reduced.globals grown.globals globals
  have sameConstants := sameEntries_grown reduced.constants grown.constants constants
  cases ts
  cases us
  simp_all

end Extensions

end Inference

end TypedBlocks

import TypedBlocks.Proofs.KnownTypes

/-!
# Built types

Types are built from simple types and classes by binding variables and by unions of several kinds.
In whatever order that is done, the result is proper.
-/
namespace TypedBlocks.Ty

/-- The types that can be built. -/
inductive Built : Ty → Prop
  | simple (s : SimpleTy) : Built (.simple s)
  | instanceOf (name : String) : Built (instanceOf name)
  | withVar {name : String} {vs : List (String × Ty)} {u : Ty} (x : String)
    (object : Built (.object name vs)) (bound : Built u) : Built ((Ty.object name vs).withVar x u)
  | unionOf {ts : List Ty} (parts : ∀ t ∈ ts, Built t) : Built (unionOf ts)
  | merged {ts : List Ty} {t : Ty} (parts : ∀ t ∈ ts, Built t) (merged : merge? ts = some t) :
    Built t
  | join {t u : Ty} (left : Built t) (right : Built u) : Built (t.join u)

variable {t u : Ty} {ts : List Ty} {name : String} {vs : List (String × Ty)}

/-- Binding a variable anew leaves every variable bound once. -/
theorem withVar_proper (x : String) (object : (Ty.object name vs).Proper) (bound : u.Proper) :
    ((Ty.object name vs).withVar x u).Proper := by
  have entries : Inference.Entries (fun _ : String => True) Ty.Proper vs :=
    ⟨fun v member => ⟨trivial, object.vars_proper v member⟩,
      (List.pairwise_map.1 object.vars_once).imp fun apart same => apart (beq_iff_eq.1 same)⟩
  have updated : Inference.Entries (fun _ : String => True) Ty.Proper (bindVar x u vs) :=
    Inference.bindVar_eq x u ▸ entries.updateAt trivial bound fun _ _ => bound
  exact .object name _ updated.nodup fun v member => (updated.each v member).2

theorem Built.proper (built : t.Built) : t.Proper := by
  induction built with
  | simple s => exact .simple s
  | instanceOf name => exact .object name [] List.nodup_nil nofun
  | withVar x _ _ object bound => exact withVar_proper x object bound
  | unionOf _ parts => exact unionOf_proper parts
  | merged _ merged parts => exact merge?_proper parts merged
  | join _ _ left right => exact join_proper left right

theorem mergeOption_built {a b : Option Ty} (left : ∀ t ∈ a, t.Built) (right : ∀ t ∈ b, t.Built) :
    ∀ t ∈ mergeOption a b, t.Built :=
  mergeOption_all (fun _ _ => .join) left right

end TypedBlocks.Ty

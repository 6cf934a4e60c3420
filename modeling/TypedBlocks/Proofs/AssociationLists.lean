/-!
# Association lists

Where no key stands twice, a lookup finds exactly the entries of the list.
-/
namespace TypedBlocks

variable {α β : Type} [BEq α] [LawfulBEq α] {entries : List (α × β)} {k : α} {b : β}

theorem mem_of_lookup (found : entries.lookup k = some b) : (k, b) ∈ entries := by
  induction entries with
  | nil => cases found
  | cons e entries ih =>
    obtain ⟨k', b'⟩ := e
    rw [List.lookup_cons] at found
    split at found
    · rename_i here
      rw [beq_iff_eq] at here
      cases found
      exact here ▸ List.mem_cons_self
    · exact List.mem_cons_of_mem _ (ih found)

theorem lookup_of_mem (once : (entries.map (·.1)).Nodup) (member : (k, b) ∈ entries) :
    entries.lookup k = some b := by
  induction entries with
  | nil => cases member
  | cons e entries ih =>
    obtain ⟨k', b'⟩ := e
    rw [List.map_cons, List.nodup_cons] at once
    rcases List.mem_cons.1 member with here | later
    · cases here
      simp
    · have apart : k ≠ k' := by
        rintro rfl
        exact once.1 (List.mem_map_of_mem (f := (·.1)) later)
      rw [List.lookup_cons, beq_false_of_ne apart]
      exact ih once.2 later

theorem lookup_eq_some_iff (once : (entries.map (·.1)).Nodup) :
    entries.lookup k = some b ↔ (k, b) ∈ entries :=
  ⟨mem_of_lookup, lookup_of_mem once⟩

end TypedBlocks

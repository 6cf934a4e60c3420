import TypedBlocks.Proofs.CompilationSteps

/-!
# Sessions

Texts that are compiled one after another share their diagnostics, and a text is only taken on when
there are none. So a session is worth as much as compilations on their own until one of its texts
fails; after that no text compiles any more, and only a text that does not read is answered as it
would be alone.
-/
namespace TypedBlocks

namespace Compile

open Compilation

variable {α β : Type}

/-- What a first step leaves is handed to the next one, and a failure ends all. -/
theorem bind_run (x : Compile α) (f : α → Compile β) (ds : Diagnostics) :
    (x >>= f).run.run ds = match x.run.run ds with
      | (.ok a, ds₁) => (f a).run.run ds₁
      | (.error e, ds₁) => (.error e, ds₁) := by
  change (match x.run.run ds with
    | (r, ds₁) => (ExceptT.bindCont f r).run ds₁) = _
  rcases x.run.run ds with ⟨_ | _, ds₁⟩ <;> rfl

theorem bind_stops {x : Compile α} {f : α → Compile β} {ds ds₁ : Diagnostics} {e : Failure}
    (stops : x.run.run ds = (.error e, ds₁)) : (x >>= f).run.run ds = (.error e, ds₁) := by
  rw [bind_run, stops]

/-- A text that reads fails all the same if there are diagnostics already. -/
theorem read_run (first : NodeId) (text : String) (ds : Diagnostics) :
    (read first text).run.run ds = match Module.read first text with
      | .error (.lexical e) => (.error (.failed .lexing), ds.push e.message none)
      | .error (.syntactic (.unexpected e)) =>
        (.error (.failed .parsing),
          (ds.push e.diagnostic.message e.diagnostic.span).push e.message none)
      | .error (.syntactic .outOfFuel) => (.error .outOfFuel, ds)
      | .ok result =>
        if ds.hasErrors then (.error (.failed .parsing), ds) else (.ok result, ds) := by
  unfold read
  cases Module.read first text with
  | error e => rcases e with _ | _ | _ <;> rfl
  | ok result =>
    dsimp only
    rw [bind_run]
    change (if ds.hasErrors then _ else _ : Compile (Module × NodeId)).run.run ds = _
    split <;> rfl

end Compile

namespace Diagnostics

theorem hasErrors_iff (ds : Diagnostics) : ds.hasErrors = true ↔ ds.entries ≠ [] := by
  simp [hasErrors, isEmpty]

theorem eq_empty {ds : Diagnostics} (clean : ds.hasErrors = false) : ds = empty := by
  rcases ds with ⟨entries⟩
  simpa [hasErrors, isEmpty, empty] using clean

theorem empty_append (ds : Diagnostics) : empty.append ds = ds := rfl

theorem append_empty (ds : Diagnostics) : ds.append empty = ds := by simp [append, empty]

/-- Nothing is appended only if there is nothing to append. -/
theorem append_eq_self {ds more : Diagnostics} (same : ds = ds.append more) : more = empty := by
  rcases ds with ⟨entries⟩
  rcases more with ⟨extra⟩
  simpa [append, empty] using same

theorem push_hasErrors (ds : Diagnostics) (message : String) (span : Option Span) :
    (ds.push message span).hasErrors = true := by simp [push, hasErrors_iff]

theorem foldl_pushStatic_hasErrors {es : List StaticError} (some : es ≠ []) (ds : Diagnostics) :
    (es.foldl pushStatic ds).hasErrors = true := by
  induction es generalizing ds with
  | nil => exact absurd rfl some
  | cons e es ih =>
    rw [List.foldl_cons]
    by_cases last : es = []
    · rw [last]
      exact push_hasErrors ds _ _
    · exact ih last _

end Diagnostics

namespace Inference

/-- An error is never dropped as a repetition of itself. -/
theorem distinctErrors_ne_nil {es : List StaticError} (some : es ≠ []) : distinctErrors es ≠ [] := by
  have grows : ∀ (es seen : List StaticError), seen ≠ [] →
      es.foldl (fun seen e => if seen.contains e then seen else seen ++ [e]) seen ≠ [] := by
    intro es
    induction es with
    | nil => exact fun _ there => there
    | cons e es ih =>
      intro seen there
      rw [List.foldl_cons]
      apply ih
      split
      · exact there
      · simp
  cases es with
  | nil => exact absurd rfl some
  | cons e es => exact grows es [e] (by simp)

theorem iterate_errors_ne_nil {cx : Setting} {fuel : Nat} {statements : List Expr} {left : Nat}
    {ts : Tables} {es : List StaticError}
    (failed : iterate cx fuel statements left ts = .error (.errors es)) : es ≠ [] := by
  rcases iterate_errors failed with rfl | ⟨_, _, _, -, -, faulty, rfl⟩
  · exact List.cons_ne_nil _ _
  · exact distinctErrors_ne_nil faulty

end Inference

namespace Compilation

open Compile

/-- A phase that rejects a program says why. -/
theorem ofBodies_errors_ne_nil {limits : Inference.Limits} {bodies : List (List Expr)} {phase : Phase}
    {es : List StaticError} (failed : ofBodies limits bodies = .error (.errors phase es)) :
    es ≠ [] := by
  unfold ofBodies at failed
  split at failed
  · rename_i unknown collected
    cases failed
    unfold Definitions.ofBodies at collected
    dsimp only at collected
    split at collected
    · cases collected
    · rename_i faulty
      cases collected
      simpa using faulty
  · split at failed
    · rename_i offences resolved
      cases failed
      unfold resolveExits at resolved
      dsimp only at resolved
      split at resolved
      · cases resolved
      · rename_i faulty
        cases resolved
        exact faulty
    · dsimp only at failed
      split at failed
      · rename_i inferred
        cases failed
        exact Inference.iterate_errors_ne_nil inferred
      · cases failed
      · cases failed

/-- A step that starts without diagnostics leaves some exactly if it fails in a phase. -/
def Accounts {α : Type} (x : Compile α) : Prop :=
  (x.run.run .empty).2.hasErrors = true ↔ ∃ phase, (x.run.run .empty).1 = .error (.failed phase)

section Accounts

variable {α β : Type}

theorem accounts_pure (a : α) : Accounts (pure a) := ⟨nofun, nofun⟩

theorem accounts_outOfFuel : Accounts (throw .outOfFuel : Compile α) := ⟨nofun, nofun⟩

theorem accounts_bind {x : Compile α} {f : α → Compile β} (first : Accounts x)
    (rest : ∀ a, Accounts (f a)) : Accounts (x >>= f) := by
  unfold Accounts at first ⊢
  rw [bind_run]
  rcases result : x.run.run .empty with ⟨e | a, ds⟩
  · rw [result] at first
    simpa using first
  · rw [result] at first
    have clean : ds = .empty := by
      apply Diagnostics.eq_empty
      rw [← Bool.not_eq_true]
      exact fun faulty => nomatch first.1 faulty
    subst clean
    exact rest a

theorem accounts_read (first : NodeId) (text : String) : Accounts (read first text) := by
  unfold Accounts
  rw [read_run]
  rcases Module.read first text with (_ | _ | _) | _
  · exact ⟨fun _ => ⟨_, rfl⟩, fun _ => Diagnostics.push_hasErrors _ _ _⟩
  · exact ⟨fun _ => ⟨_, rfl⟩, fun _ => Diagnostics.push_hasErrors _ _ _⟩
  · exact ⟨nofun, nofun⟩
  · exact ⟨nofun, nofun⟩

theorem accounts_compile (options : Options) (text : String) : Accounts (compile options text) := by
  unfold compile
  apply accounts_bind
  · unfold readWithPrelude
    split
    · exact accounts_bind (accounts_read _ _) fun _ =>
        accounts_bind (accounts_read _ _) fun _ => accounts_pure _
    · exact accounts_bind (accounts_read _ _) fun _ => accounts_pure _
  · intro modules
    split
    · exact accounts_pure _
    · rename_i phase es failed
      have some := ofBodies_errors_ne_nil failed
      exact ⟨fun _ => ⟨phase, rfl⟩, fun _ => Diagnostics.foldl_pushStatic_hasErrors some .empty⟩
    · exact accounts_outOfFuel

end Accounts

/-- A failure in a phase, in contrast to a lack of fuel. -/
def Failed (r : Except Failure Compilation) : Prop := ∃ phase, r = .error (.failed phase)

/-- The text is not a module. -/
def Unreadable (text : String) : Prop := ∀ result, Module.read ⟨0⟩ text ≠ .ok result

section Answers

variable {options : Options} {text : String} {ds : Diagnostics}

theorem read_rejects (faulty : ds.hasErrors = true) {result : Module × NodeId}
    (reads : Module.read ⟨0⟩ text = .ok result) :
    (read ⟨0⟩ text).run.run ds = (.error (.failed .parsing), ds) := by
  rw [read_run, reads]
  exact if_pos faulty

/-- Where there are diagnostics, no text compiles that reads, and none behind a prelude. -/
theorem ofText_rejects (faulty : ds.hasErrors = true)
    (gated : ¬ (options.includePrelude = false ∧ Unreadable text)) :
    ofText options text ds = (.error (.failed .parsing), ds) := by
  unfold ofText compile readWithPrelude
  apply bind_stops
  by_cases prelude : options.includePrelude = true
  · rw [if_pos prelude]
    obtain ⟨result, reads⟩ := exists_ok (Module.read ⟨0⟩ preludeText) (by decide +kernel)
    exact bind_stops (read_rejects faulty reads)
  · rw [if_neg prelude]
    have readable : ∃ result, Module.read ⟨0⟩ text = .ok result := by
      apply Classical.byContradiction
      intro none
      exact gated ⟨by simpa using prelude, fun result reads => none ⟨result, reads⟩⟩
    obtain ⟨result, reads⟩ := readable
    exact bind_stops (read_rejects faulty reads)

/-- A text that does not read is reported as it is alone, behind the diagnostics that there are. -/
theorem ofText_unreadable (bare : options.includePrelude = false) (unreadable : Unreadable text)
    (ds : Diagnostics) : ofText options text ds =
      ((ofText options text .empty).1, ds.append (ofText options text .empty).2) := by
  have stops : ∃ e more, ∀ ds, (read ⟨0⟩ text).run.run ds = (.error e, Diagnostics.append ds more) := by
    cases result : Module.read ⟨0⟩ text with
    | ok result' => exact absurd result (unreadable result')
    | error e =>
      rcases e with e | e | _
      · exact ⟨_, ⟨[⟨e.message, none⟩]⟩, fun ds => by rw [read_run, result]; rfl⟩
      · refine ⟨.failed .parsing, ⟨[e.diagnostic, ⟨e.message, none⟩]⟩, fun ds => ?_⟩
        rw [read_run, result]
        simp [Diagnostics.push, Diagnostics.append]
      · exact ⟨_, .empty, fun ds => by rw [read_run, result, Diagnostics.append_empty]⟩
  obtain ⟨e, more, stops⟩ := stops
  have answer : ∀ ds, ofText options text ds = (.error e, Diagnostics.append ds more) := by
    intro ds
    unfold ofText compile readWithPrelude
    rw [if_neg (by simpa using bare)]
    exact bind_stops (bind_stops (stops ds))
  rw [answer ds, answer .empty, Diagnostics.empty_append]

/-- Diagnostics are never taken back. -/
theorem ofText_keeps (faulty : ds.hasErrors = true) : (ofText options text ds).2.hasErrors = true := by
  by_cases alone : options.includePrelude = false ∧ Unreadable text
  · rw [ofText_unreadable alone.1 alone.2, Diagnostics.hasErrors_iff]
    simpa [Diagnostics.append] using fun none => absurd none ((Diagnostics.hasErrors_iff ds).1 faulty)
  · rw [ofText_rejects faulty alone]
    exact faulty

end Answers

/-- The diagnostics that a session has after some texts. -/
def diagnosticsAfter (options : Options) (history : List String) (ds : Diagnostics) : Diagnostics :=
  history.foldl (fun ds text => (ofText options text ds).2) ds

section Sessions

variable {options : Options}

theorem ofTexts_append (history texts : List String) (ds : Diagnostics) :
    ofTexts options (history ++ texts) ds =
      ofTexts options history ds ++ ofTexts options texts (diagnosticsAfter options history ds) := by
  induction history generalizing ds with
  | nil => rfl
  | cons text history ih => exact congrArg (_ :: ·) (ih _)

theorem diagnosticsAfter_keeps {history : List String} {ds : Diagnostics}
    (faulty : ds.hasErrors = true) : (diagnosticsAfter options history ds).hasErrors = true := by
  induction history generalizing ds with
  | nil => exact faulty
  | cons text history ih => exact ih (ofText_keeps faulty)

/-- A session has diagnostics exactly if one of its texts has failed. -/
theorem diagnosticsAfter_hasErrors_iff {history : List String} :
    (diagnosticsAfter options history .empty).hasErrors = true ↔
      ∃ r ∈ ofTexts options history .empty, Failed r.1 := by
  induction history with
  | nil => exact ⟨nofun, fun ⟨_, member, _⟩ => nomatch member⟩
  | cons text history ih =>
    have first : (ofText options text .empty).2.hasErrors = true ↔
        Failed (ofText options text .empty).1 := accounts_compile options text
    by_cases failed : Failed (ofText options text .empty).1
    · have kept : (diagnosticsAfter options history
          (ofText options text .empty).2).hasErrors = true := diagnosticsAfter_keeps (first.2 failed)
      exact ⟨fun _ => ⟨_, List.mem_cons_self, failed⟩, fun _ => kept⟩
    · have clean : (ofText options text .empty).2 = .empty :=
        Diagnostics.eq_empty (by simpa using mt first.1 failed)
      have rest : ofTexts options (text :: history) .empty =
          ofText options text .empty :: ofTexts options history .empty :=
        congrArg (fun ds => _ :: ofTexts options history ds) clean
      have after : diagnosticsAfter options (text :: history) .empty =
          diagnosticsAfter options history .empty :=
        congrArg (diagnosticsAfter options history) clean
      rw [rest, after, ih]
      simp [failed]

/-- The answer that a session gives to a text after others is the one that the text gets alone, with
the diagnostics that it gets alone behind those of the session, if and only if no earlier text has
failed, or the text does not read and there is no prelude before it. Whenever it is not, the text fails
to be parsed, without a diagnostic. -/
theorem session_answers (options : Options) (history : List String) (text : String) :
    let ds := diagnosticsAfter options history .empty
    let alone := ofText options text .empty
    let independent := (∀ r ∈ ofTexts options history .empty, ¬ Failed r.1) ∨
      (options.includePrelude = false ∧ Unreadable text)
    (ofTexts options (history ++ [text]) .empty).getLast? = some (ofText options text ds) ∧
      (ofText options text ds = (alone.1, ds.append alone.2) ↔ independent) ∧
      (¬ independent → ofText options text ds = (.error (.failed .parsing), ds)) := by
  intro ds alone independent
  have last : (ofTexts options (history ++ [text]) .empty).getLast? = some (ofText options text ds) := by
    rw [ofTexts_append]
    exact List.getLast?_concat
  have faulty_iff : ds.hasErrors = true ↔ ∃ r ∈ ofTexts options history .empty, Failed r.1 :=
    diagnosticsAfter_hasErrors_iff
  have rejects : ¬ independent → ofText options text ds = (.error (.failed .parsing), ds) := by
    intro dependent
    obtain ⟨failed, gated⟩ := not_or.1 dependent
    apply ofText_rejects _ gated
    rw [faulty_iff]
    simpa using failed
  refine ⟨last, ⟨fun same => ?_, ?_⟩, rejects⟩
  · -- A rejection adds no diagnostic, but a text that fails alone has one.
    apply Classical.byContradiction
    intro dependent
    rw [rejects dependent] at same
    obtain ⟨result, kept⟩ := Prod.mk.inj same
    have clean : alone.2 = .empty := Diagnostics.append_eq_self kept
    have some : alone.2.hasErrors = true := (accounts_compile options text).2 ⟨_, result.symm⟩
    rw [clean] at some
    cases some
  · rintro (clean | ⟨bare, unreadable⟩)
    · have start : ds = .empty := by
        apply Diagnostics.eq_empty
        rw [← Bool.not_eq_true, faulty_iff]
        exact fun ⟨r, member, failed⟩ => clean r member failed
      rw [start]
      rfl
    · exact ofText_unreadable bare unreadable ds

end Sessions

end Compilation

end TypedBlocks

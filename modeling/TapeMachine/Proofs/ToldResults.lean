import TapeMachine.CommandLine

/-!
# The journal is only written

What an attempt comes to does not depend on the records that were written before it, nor on those
that it writes itself. So the attempts of the journal come to what the functions of the same names
answer, and those of the command line are put together from such answers.
-/

namespace TapeMachine

variable {ε α β γ : Type}

/-- A told computation has one value, whatever has been told before. -/
def Told.Gives (x : Told α) (a : α) : Prop := ∀ records, (x.run records).1 = a

namespace Told

variable {x : Told α} {f : α → Told β} {a : α} {b : β}

theorem gives_pure (a : α) : Gives (pure a) a := fun _ => rfl

theorem gives_tell (records : List Record) : Gives (Journal.tell records) () := fun _ => rfl

theorem Gives.bind (hx : Gives x a) (hf : Gives (f a) b) : Gives (x >>= f) b := by
  intro records
  have h := hf (x.run records).2
  rw [← hx records] at h
  exact h

end Told

namespace Attempt

/-- An attempt has one result, whatever has been told before. -/
def Gives (x : Attempt ε α) (result : Except ε α) : Prop := Told.Gives x.run result

/-- What an attempt comes to. -/
def result (x : Attempt ε α) : Except ε α := (Journal.outcome x).1

variable {x : Attempt ε α} {f : α → Attempt ε β} {a : α} {e : ε}

theorem Gives.result_eq {r : Except ε α} (h : x.Gives r) : x.result = r := h #[]

theorem gives_pure (a : α) : Gives (pure a : Attempt ε α) (.ok a) := fun _ => rfl

private theorem gives_lift (r : Except ε α) : Gives (Journal.lift r) r := fun _ => rfl

theorem run_bind (x : Attempt ε α) (f : α → Attempt ε β) :
    (x >>= f).run = x.run >>= ExceptT.bindCont f := rfl

theorem Gives.bind_ok {r : Except ε β} (hx : x.Gives (.ok a)) (hf : (f a).Gives r) :
    Gives (x >>= f) r := by
  rw [Gives, run_bind]
  exact Told.Gives.bind hx hf

theorem Gives.bind_error (hx : x.Gives (.error e)) : Gives (x >>= f) (.error e) := by
  rw [Gives, run_bind]
  exact Told.Gives.bind hx (Told.gives_pure _)

end Attempt

/-- What a told computation answers is passed on to an attempt. -/
theorem Told.Gives.bind_attempt {t : Told γ} {g : γ → Attempt ε β} {c : γ} {r : Except ε β}
    (ht : t.Gives c) (hg : (g c).Gives r) : Attempt.Gives (liftM t >>= g) r := by
  intro records
  have h := hg (t.run records).2
  rw [← ht records] at h
  exact h

namespace Journal

open Attempt

private theorem gives_warnUnreachable (d : Definition) : (warnUnreachable d).Gives () := by
  unfold warnUnreachable
  cases d.unreachableStates with
  | nil => exact Told.gives_pure _
  | cons s rest => exact Told.gives_tell _

private theorem gives_analyzed (r : Except Failure Definition) : (analyzed r).Gives r := by
  cases r with
  | error e => exact (gives_lift _).bind_error
  | ok d =>
    refine (gives_lift _).bind_ok ?_
    exact (gives_warnUnreachable d).bind_attempt (Attempt.gives_pure d)

private theorem gives_read (format : Format) (text : String) :
    (read format text).Gives (Definition.read format text) :=
  gives_analyzed _

private theorem gives_fetch (files : Files) (path : String) :
    (fetch files path).Gives (files.definition path) := by
  unfold fetch Files.definition
  cases files.definitionText path with
  | error e => exact (gives_lift _).bind_error
  | ok text =>
    refine (gives_lift _).bind_ok ?_
    exact (Told.gives_tell _).bind_attempt (gives_read _ _)

theorem gives_load (d : Definition) (w : String) :
    (load d w).Gives (orFailure .malformed (Machine.load d w)) := by
  unfold load
  cases Machine.load d w with
  | error f => exact (gives_lift _).bind_error
  | ok m =>
    refine (gives_lift _).bind_ok ?_
    exact (Told.gives_tell _).bind_attempt (Attempt.gives_pure m)

theorem gives_run (m : Machine) (limits : Limits) : (run m limits).Gives (m.run limits) := by
  unfold run Machine.run
  cases m.kind with
  | deterministic => exact (Told.gives_tell _).bind (Told.gives_pure _)
  | nondeterministic =>
    have hexplore : (explore m limits).Gives (m.explore limits) :=
      (Told.gives_tell _).bind (Told.gives_pure _)
    exact hexplore.bind ((Told.gives_tell _).bind (Told.gives_pure _))

end Journal

namespace CommandLine

open Attempt

/-- Failures are turned into their messages. -/
theorem gives_messages {x : Attempt Failure α} {r : Except Failure α} (h : x.Gives r) :
    (messages x).Gives (r.mapError Failure.message) := by
  refine Told.Gives.bind h ?_
  cases r with
  | error e => exact Told.gives_pure _
  | ok a => exact Told.gives_pure _

/-- A program from outside of the catalog, once its definition is there. -/
def Resolved.ofDefinition (d : Definition) : Resolved := { definition := d, entry := none }

variable {world : Surroundings} {program : String}

private theorem gives_resolved {x : Attempt Failure Definition} {r : Except Failure Definition}
    (h : x.Gives r) :
    Gives (do return { definition := ← messages x, entry := none } : Attempt String Resolved)
      ((r.mapError Failure.message).map .ofDefinition) := by
  cases r with
  | error e => exact (gives_messages h).bind_error
  | ok d => exact (gives_messages h).bind_ok (Attempt.gives_pure _)

/-- A file comes first. -/
theorem gives_resolve_file (h : world.files.isFile program = true) :
    (resolve world (some program)).Gives
      (((world.files.definition program).mapError Failure.message).map .ofDefinition) := by
  rw [resolve, if_pos h]
  exact gives_resolved (Journal.gives_fetch _ _)

theorem gives_resolve_entry {e : CatalogEntry} (h : world.files.isFile program = false)
    (he : catalogEntry? program = some e) :
    (resolve world (some program)).Gives (.ok { definition := e.definition, entry := some e }) := by
  rw [resolve, if_neg (by simp [h]), he]
  exact Attempt.gives_pure _

theorem gives_resolve_unknown (h : world.files.isFile program = false)
    (he : catalogEntry? program = none) : (resolve world (some program)).Gives
      (.error s!"'{program}' is neither a file nor a built-in machine") := by
  rw [resolve, if_neg (by simp [h]), he]
  exact Attempt.gives_lift _

/-- Standard input has the format that it looks like. -/
theorem gives_resolve_text {bytes : ByteArray} {text : String} (hpiped : world.stdin = .piped bytes)
    (h : decodeText bytes = .ok text) :
    (resolve world none).Gives
      (((Definition.read (.detect text) text).mapError Failure.message).map .ofDefinition) := by
  simp only [resolve, hpiped, h]
  exact gives_resolved (Journal.gives_read _ _)

theorem gives_resolve_invalid {bytes : ByteArray} {reason : SystemFault}
    (hpiped : world.stdin = .piped bytes) (h : decodeText bytes = .error reason) :
    (resolve world none).Gives (.error s!"Failed to read from stdin: {reason.message}") := by
  simp only [resolve, hpiped, h]
  exact Attempt.gives_lift _

/-- Nothing is read from a terminal. -/
theorem gives_resolve_terminal (h : world.stdin = .terminal) :
    (resolve world none).Gives (.error noProgram) := by
  simp only [resolve, h]
  exact Attempt.gives_lift _

theorem gives_resolve (world : Surroundings) (program : Option String) :
    (resolve world program).Gives (resolve world program).result := by
  suffices ∃ r, (resolve world program).Gives r by
    obtain ⟨r, h⟩ := this
    rwa [h.result_eq]
  cases program with
  | none =>
    cases hs : world.stdin with
    | terminal => exact ⟨_, gives_resolve_terminal hs⟩
    | piped bytes =>
      cases h : decodeText bytes with
      | error reason => exact ⟨_, gives_resolve_invalid hs h⟩
      | ok text => exact ⟨_, gives_resolve_text hs h⟩
  | some program =>
    cases h : world.files.isFile program with
    | true => exact ⟨_, gives_resolve_file h⟩
    | false =>
      cases he : catalogEntry? program with
      | none => exact ⟨_, gives_resolve_unknown h he⟩
      | some e => exact ⟨_, gives_resolve_entry h he⟩

theorem gives_limits (files : Files) (o : RunOptions) :
    (limits files o).Gives (limits files o).result := by
  suffices ∃ r, (limits files o).Gives r by
    obtain ⟨r, h⟩ := this
    rwa [h.result_eq]
  unfold limits
  cases fileLimits files o.limitsFile with
  | error e => exact ⟨_, (gives_lift _).bind_error⟩
  | ok base => exact ⟨_, (gives_lift _).bind_ok ((Told.gives_tell _).bind_attempt (gives_pure _))⟩

end CommandLine

end TapeMachine

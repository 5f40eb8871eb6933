import TapeMachine.Proofs.BuiltInMachines
import TapeMachine.Proofs.PrintedRuns
import TapeMachine.Proofs.ToldResults

/-!
# Exit status and output of the command line

A command either has all that it needs or does nothing. When its program, the limits of a run or a
machine for one of its inputs cannot be had, the status is 2 and nothing has been printed: what can
fail fails before the first line, since a program that has several inputs is built in, and every
built-in machine can be loaded with all of its samples. Otherwise everything is printed, and a run
on a single input tells its verdict by its status.
-/

namespace TapeMachine.CommandLine

namespace Session

variable {α β γ : Type}

/-- A session comes to a result and prints lines, whatever has been told and printed before. -/
def Does (s : Session α) (result : Except String α) (lines : List String) : Prop :=
  ∀ printed, Told.Gives (s.run.run printed) (result, printed ++ lines)

variable {s : Session α} {f : α → Session β} {a : α} {e : String} {lines more : List String}

private theorem does_pure (a : α) : Does (pure a : Session α) (.ok a) [] := by
  intro printed
  rw [List.append_nil]
  exact Told.gives_pure _

private theorem does_print (lines : List String) : Does (print lines) (.ok ()) lines :=
  fun _ => Told.gives_pure _

theorem run_bind (s : Session α) (f : α → Session β) (printed : List String) :
    (s >>= f).run.run printed =
      s.run.run printed >>= fun done => (ExceptT.bindCont f done.1).run done.2 := rfl

theorem Does.bind_ok {r : Except String β} (hs : s.Does (.ok a) lines)
    (hf : (f a).Does r more) : Does (s >>= f) r (lines ++ more) := by
  intro printed
  rw [run_bind, ← List.append_assoc]
  exact (hs printed).bind (hf (printed ++ lines))

theorem Does.bind_error (hs : s.Does (.error e) lines) : Does (s >>= f) (.error e) lines := by
  intro printed
  rw [run_bind]
  exact (hs printed).bind (Told.gives_pure _)

/-- What follows a session that prints nothing prints everything. -/
theorem Does.bind_silent {r : Except String β} (hs : s.Does (.ok a) []) (hf : (f a).Does r more) :
    Does (s >>= f) r more :=
  hs.bind_ok hf

/-- A session that only answers something prints nothing. -/
theorem Does.bind_pure {g : α → β} (hs : s.Does (.ok a) lines) :
    Does (s >>= fun x => pure (g x)) (.ok (g a)) lines := by
  have h : Does (s >>= fun x => pure (g x)) (.ok (g a)) (lines ++ []) :=
    hs.bind_ok (does_pure (g a))
  rwa [List.append_nil] at h

/-- An attempt prints nothing. -/
theorem does_attempt {x : Attempt String α} {r : Except String α} (h : x.Gives r) :
    (attempt x).Does r [] := by
  intro printed
  rw [List.append_nil]
  exact h.bind (Told.gives_pure _)

/-- What a told computation answers is passed on, and nothing is printed. -/
theorem does_told {t : Told γ} {c : γ} (h : t.Gives c) :
    Does (liftM t : Session γ) (.ok c) [] := by
  intro printed records
  rw [List.append_nil, ← h records]
  rfl

end Session

open Session

variable {world : Surroundings}

/-- A call that comes to a status has it, and standard output is what was printed. -/
theorem execute_of_does_ok {call : Invocation} {status : Nat} {lines : List String}
    (h : (perform world call.command).Does (.ok status) lines) :
    (execute world call).exit = status ∧ (execute world call).stdout = unlines lines := by
  have hdone : (Journal.collect ((perform world call.command).run.run [])).1 =
    (.ok status, lines) := h [] #[]
  unfold execute
  generalize Journal.collect _ = collected at hdone
  obtain ⟨done, records⟩ := collected
  cases hdone
  exact ⟨rfl, rfl⟩

/-- A call that fails has status 2. -/
theorem execute_of_does_error {call : Invocation} {message : String} {lines : List String}
    (h : (perform world call.command).Does (.error message) lines) :
    (execute world call).exit = 2 ∧ (execute world call).stdout = unlines lines := by
  have hdone : (Journal.collect ((perform world call.command).run.run [])).1 =
    (.error message, lines) := h [] #[]
  unfold execute
  generalize Journal.collect _ = collected at hdone
  obtain ⟨done, records⟩ := collected
  cases hdone
  exact ⟨rfl, rfl⟩

/-- A machine loaded with an input, and its run within limits. -/
def IsRun (d : Definition) (l : Limits) (w : String) (x : Machine × Run) : Prop :=
  Machine.load d w = .ok x.1 ∧ x.2 = x.1.run l

/-- The lines are those for a run, with the configuration that it ends in. -/
def IsPrinted (o : RunOptions) (x : Machine × Run) (lines : List String) : Prop :=
  ∃ c, x.2.trace.last? = some c ∧ Prints o x.1 x.2 c lines

variable {d : Definition} {l : Limits} {o : RunOptions} {w : String}

private theorem does_runOn {x : Machine × Run} (h : IsRun d l w x) :
    (runOn d l o w).Does (.ok x.2.verdict) (runLines x.1 x.2 o) := by
  obtain ⟨hload, hrun⟩ := h
  have hgives := gives_messages (Journal.gives_load d w)
  rw [hload] at hgives
  rw [hrun]
  unfold runOn
  refine (does_attempt hgives).bind_silent ?_
  refine (does_told (Told.gives_tell _)).bind_silent ?_
  refine (does_told (Journal.gives_run x.1 l)).bind_silent ?_
  exact (does_print _).bind_pure

private theorem does_runOn_error {f : Fault} (h : Machine.load d w = .error f) :
    ∃ message, (runOn d l o w).Does (.error message) [] := by
  have hgives := gives_messages (Journal.gives_load d w)
  rw [h] at hgives
  exact ⟨_, (does_attempt hgives).bind_error⟩

/-- Runs on several inputs come one after the other. -/
theorem does_runAll {words : List String} {runs : List (Machine × Run)}
    (h : List.Forall₂ (IsRun d l) words runs) :
    (runAll d l o words).Does (.ok (runs.map (·.2.verdict)))
      (runs.flatMap fun x => runLines x.1 x.2 o) := by
  induction h with
  | nil => exact does_pure []
  | cons hx _ ih =>
    unfold runAll
    exact (does_runOn hx).bind_ok ih.bind_pure

/-- What runs print are the lines for each of them. -/
theorem forall₂_isPrinted {words : List String} {runs : List (Machine × Run)}
    (h : List.Forall₂ (IsRun d l) words runs) :
    List.Forall₂ (IsPrinted o) runs (runs.map fun x => runLines x.1 x.2 o) := by
  induction h with
  | nil => exact .nil
  | @cons w x words runs hx _ ih =>
    obtain ⟨m, r⟩ := x
    obtain rfl : r = m.run l := hx.2
    exact .cons (prints_runLines m l o) ih

private theorem exists_runs {words : List String} (h : ∀ w ∈ words, ∃ m, Machine.load d w = .ok m) :
    ∃ runs, List.Forall₂ (IsRun d l) words runs := by
  induction words with
  | nil => exact ⟨[], .nil⟩
  | cons w words ih =>
    obtain ⟨m, hm⟩ := h w List.mem_cons_self
    obtain ⟨runs, hruns⟩ := ih fun v hv => h v (List.mem_cons_of_mem w hv)
    exact ⟨(m, m.run l) :: runs, .cons ⟨hm, rfl⟩ hruns⟩

/-- A built-in machine has several samples, and they are over its alphabet. -/
theorem samples_of_mem {e : CatalogEntry} (h : e ∈ Catalog.entries) : 1 < e.samples.length ∧
    ∀ w ∈ e.samples, ∀ s ∈ w.toList, s ∈ e.definition.inputSymbols := by
  have hall : ∀ x ∈ Catalog.entries.map fun e => (e.samples, e.definition.inputSymbols),
      1 < x.1.length ∧ ∀ w ∈ x.1, w.toList.all x.2.contains := by
    rw [Catalog.entries_eq]
    decide
  obtain ⟨hseveral, hover⟩ := hall _ (List.mem_map.mpr ⟨e, h, rfl⟩)
  refine ⟨hseveral, fun w hw s hs => ?_⟩
  exact List.contains_iff_mem.mp (List.all_eq_true.mp (hover w hw) s hs)

private theorem mem_entries_of_named {program : String} {e : CatalogEntry}
    (h : catalogEntry? program = some e) : e ∈ Catalog.entries := by
  unfold catalogEntry? Catalog.byName? at h
  simp only [Option.orElse_eq_orElse, Option.orElse_eq_or, Option.or_eq_some_iff] at h
  obtain hindex | ⟨-, hname⟩ := h
  · obtain ⟨index, -, hindex⟩ := Option.bind_eq_some_iff.mp hindex
    exact List.mem_of_getElem? hindex
  · exact List.mem_of_find?_eq_some hname

private theorem entry_of_definition {r : Except Failure Definition} {p : Resolved}
    (h : (r.mapError Failure.message).map Resolved.ofDefinition = .ok p) : p.entry = none := by
  cases r with
  | error e => cases h
  | ok d => cases h; rfl

/-- A program that comes with an entry is the one of the entry. -/
theorem mem_of_resolve {program : Option String} {p : Resolved} {e : CatalogEntry}
    (h : (resolve world program).result = .ok p) (he : p.entry = some e) :
    e ∈ Catalog.entries ∧ p.definition = e.definition := by
  cases program with
  | none =>
    cases hs : world.stdin with
    | terminal =>
      rw [(gives_resolve_terminal hs).result_eq] at h
      cases h
    | piped bytes =>
      cases htext : decodeText bytes with
      | error reason =>
        rw [(gives_resolve_invalid hs htext).result_eq] at h
        cases h
      | ok text =>
        rw [(gives_resolve_text hs htext).result_eq] at h
        rw [entry_of_definition h] at he
        cases he
  | some program =>
    cases hfile : world.files.isFile program with
    | true =>
      rw [(gives_resolve_file hfile).result_eq] at h
      rw [entry_of_definition h] at he
      cases he
    | false =>
      cases hentry : catalogEntry? program with
      | none =>
        rw [(gives_resolve_unknown hfile hentry).result_eq] at h
        cases h
      | some e' =>
        rw [(gives_resolve_entry hfile hentry).result_eq] at h
        cases h
        cases he
        exact ⟨mem_entries_of_named hentry, rfl⟩

/-- Only a run on a single input can fail to load. -/
theorem inputs_eq_or_load {program : Option String} {p : Resolved} (o : RunOptions)
    (h : (resolve world program).result = .ok p) : (∃ w, inputs p o = [w]) ∨
      1 < (inputs p o).length ∧ ∀ w ∈ inputs p o, ∃ m, Machine.load p.definition w = .ok m := by
  unfold inputs
  cases o.input with
  | some input => exact .inl ⟨input, rfl⟩
  | none =>
    cases he : p.entry with
    | none => exact .inl ⟨"", rfl⟩
    | some e =>
      right
      obtain ⟨hmem, hdefinition⟩ := mem_of_resolve h he
      obtain ⟨hseveral, hover⟩ := samples_of_mem hmem
      refine ⟨hseveral, fun w hw => ?_⟩
      obtain ⟨m, hload, -⟩ := Catalog.exists_load_of_mem hmem (hover w hw)
      rw [hdefinition]
      exact ⟨m, hload⟩

/-- Something that a command needs cannot be had: its program, the limits of a run, or a machine for
one of the inputs. -/
inductive Lacks (world : Surroundings) : Command → Prop
  | checkedProgram {program e} (h : (resolve world program).result = .error e) :
    Lacks world (.check program)
  | drawnProgram {program e} (h : (resolve world program).result = .error e) :
    Lacks world (.automaton program)
  | runProgram {program o e} (h : (resolve world program).result = .error e) :
    Lacks world (.run program o)
  | runLimits {program o e} (h : (limits world.files o).result = .error e) :
    Lacks world (.run program o)
  | machine {program o p w f} (hp : (resolve world program).result = .ok p) (hw : w ∈ inputs p o)
    (h : Machine.load p.definition w = .error f) : Lacks world (.run program o)

/-- A single run tells its verdict by the status; several runs tell nothing by it. -/
def StatusOf (runs : List (Machine × Run)) (status : Nat) : Prop :=
  (∃ x, runs = [x] ∧
    (status = 1 ↔ x.2.verdict = .rejected) ∧
    (status = 124 ↔ x.2.verdict = .timeout) ∧
    (status = 0 ↔ x.2.verdict = .accepted ∨ x.2.verdict = .haltedNonFinal)) ∨
  1 < runs.length ∧ status = 0

/-- The status and the lines of a command that has all that it needs. The lines of a run are those
for each of its inputs, in their order. -/
def Completes (world : Surroundings) (status : Nat) (lines : List String) : Command → Prop
  | .list => status = 0 ∧ lines = Catalog.entries.mapIdx catalogLine
  | .check program => ∃ p, (resolve world program).result = .ok p ∧ status = 0 ∧
    lines = [checkLine p.definition]
  | .automaton program => ∃ p, (resolve world program).result = .ok p ∧ status = 0 ∧
    lines = [Automaton.codec.encode .lines (diagram p)]
  | .run program o => ∃ p l runs printed, (resolve world program).result = .ok p ∧
    (limits world.files o).result = .ok l ∧
    List.Forall₂ (IsRun p.definition l) (inputs p o) runs ∧ StatusOf runs status ∧
    List.Forall₂ (IsPrinted o) runs printed ∧ lines = printed.flatten

private theorem statusOf_runStatus {runs : List (Machine × Run)} (h : runs ≠ []) :
    StatusOf runs (runStatus (runs.map (·.2.verdict))) := by
  match runs, h with
  | [x], _ =>
    refine .inl ⟨x, rfl, ?_⟩
    rw [List.map_singleton]
    cases x.2.verdict <;> decide
  | _ :: _ :: _, _ => exact .inr ⟨Nat.one_lt_succ_succ _, by simp [runStatus]⟩

private theorem Completes.status_ne_two {status : Nat} {lines : List String} {command : Command}
    (h : Completes world status lines command) : status ≠ 2 := by
  rintro rfl
  cases command with
  | list => exact absurd h.1 (by decide)
  | check program =>
    obtain ⟨_, _, hstatus, _⟩ := h
    exact absurd hstatus (by decide)
  | automaton program =>
    obtain ⟨_, _, hstatus, _⟩ := h
    exact absurd hstatus (by decide)
  | run program o =>
    obtain ⟨_, _, runs, _, _, _, _, ⟨x, -, hrejected, htimeout, hother⟩ | ⟨-, hstatus⟩, _⟩ := h
    · cases hv : x.2.verdict <;> simp [hv] at hrejected htimeout hother
    · exact absurd hstatus (by decide)

private theorem does_resolve {program : Option String} {r : Except String Resolved}
    (h : (resolve world program).result = r) : (attempt (resolve world program)).Does r [] := by
  subst h
  exact does_attempt (gives_resolve world program)

private theorem does_limits {r : Except String Limits} (h : (limits world.files o).result = r) :
    (attempt (limits world.files o)).Does r [] := by
  subst h
  exact does_attempt (gives_limits world.files o)

/-- A command that lacks something fails before it prints. -/
theorem does_of_lacks {command : Command} (h : Lacks world command) :
    ∃ message, (perform world command).Does (.error message) [] := by
  cases h with
  | checkedProgram h => exact ⟨_, (does_resolve h).bind_error⟩
  | drawnProgram h => exact ⟨_, (does_resolve h).bind_error⟩
  | runProgram h => exact ⟨_, (does_resolve h).bind_error⟩
  | @runLimits program o e h =>
    cases hp : (resolve world program).result with
    | error e' => exact ⟨e', (does_resolve hp).bind_error⟩
    | ok p => exact ⟨e, (does_resolve hp).bind_silent (does_limits h).bind_error⟩
  | @machine program o p w f hp hw h =>
    cases hl : (limits world.files o).result with
    | error e => exact ⟨e, (does_resolve hp).bind_silent (does_limits hl).bind_error⟩
    | ok l =>
      -- several inputs are samples, so the input is the only one
      obtain ⟨input, hinput⟩ | ⟨-, hload⟩ := inputs_eq_or_load o hp
      · rw [hinput, List.mem_singleton] at hw
        subst hw
        obtain ⟨message, hrun⟩ := does_runOn_error (l := l) (o := o) h
        refine ⟨message, (does_resolve hp).bind_silent ?_⟩
        refine (does_limits hl).bind_silent ?_
        rw [hinput, runAll]
        exact hrun.bind_error.bind_error
      · obtain ⟨m, hm⟩ := hload w hw
        rw [h] at hm
        cases hm

private theorem exists_runs_of_not_lacks {program : Option String} {p : Resolved}
    (hp : (resolve world program).result = .ok p) (l : Limits)
    (h : ¬ Lacks world (.run program o)) :
    ∃ runs, runs ≠ [] ∧ List.Forall₂ (IsRun p.definition l) (inputs p o) runs := by
  have hload : ∀ w ∈ inputs p o, ∃ m, Machine.load p.definition w = .ok m := by
    intro w hw
    cases hm : Machine.load p.definition w with
    | error f => exact absurd (.machine hp hw hm) h
    | ok m => exact ⟨m, rfl⟩
  obtain ⟨runs, hruns⟩ := exists_runs (l := l) hload
  refine ⟨runs, ?_, hruns⟩
  rintro rfl
  have hnone := List.forall₂_nil_right_iff.mp hruns
  obtain ⟨w, hw⟩ | ⟨hseveral, -⟩ := inputs_eq_or_load o hp
  · simp [hnone] at hw
  · simp [hnone] at hseveral

/-- A command that lacks nothing prints everything. -/
theorem does_of_not_lacks {command : Command} (h : ¬ Lacks world command) :
    ∃ status lines, (perform world command).Does (.ok status) lines ∧
      Completes world status lines command := by
  cases command with
  | list => exact ⟨0, _, (does_print _).bind_pure, rfl, rfl⟩
  | check program =>
    cases hp : (resolve world program).result with
    | error e => exact absurd (.checkedProgram hp) h
    | ok p =>
      exact ⟨0, _, (does_resolve hp).bind_silent (does_print _).bind_pure, p, hp, rfl, rfl⟩
  | automaton program =>
    cases hp : (resolve world program).result with
    | error e => exact absurd (.drawnProgram hp) h
    | ok p =>
      exact ⟨0, _, (does_resolve hp).bind_silent (does_print _).bind_pure, p, hp, rfl, rfl⟩
  | run program o =>
    cases hp : (resolve world program).result with
    | error e => exact absurd (.runProgram hp) h
    | ok p =>
      cases hl : (limits world.files o).result with
      | error e => exact absurd (.runLimits hl) h
      | ok l =>
        obtain ⟨runs, hne, hruns⟩ := exists_runs_of_not_lacks hp l h
        refine ⟨_, _, ?_, p, l, runs, _, hp, hl, hruns, statusOf_runStatus hne,
          forall₂_isPrinted hruns, rfl⟩
        refine (does_resolve hp).bind_silent ?_
        refine (does_limits hl).bind_silent ?_
        exact (does_runAll hruns).bind_pure

/-- A run of a built-in machine on inputs that it can be loaded with has all that it needs. -/
private theorem not_lacks_of_entry {program : String} {e : CatalogEntry}
    (hfile : world.files.isFile program = false) (hentry : catalogEntry? program = some e)
    (hl : (limits world.files o).result = .ok l)
    (hload : ∀ w ∈ inputs ⟨e.definition, some e⟩ o, ∃ m, Machine.load e.definition w = .ok m) :
    ¬ Lacks world (.run (some program) o) := by
  have hresolve := (gives_resolve_entry hfile hentry).result_eq
  intro h
  cases h with
  | runProgram h =>
    rw [hresolve] at h
    cases h
  | runLimits h =>
    rw [hl] at h
    cases h
  | machine hp hw h =>
    rw [hresolve] at hp
    cases hp
    obtain ⟨m, hm⟩ := hload _ hw
    rw [hm] at h
    cases h

/-- What a run of a built-in machine prints, once its limits are there. -/
private theorem exists_printed_of_entry {program : String} {e : CatalogEntry} {status : Nat}
    {lines : List String} (hfile : world.files.isFile program = false)
    (hentry : catalogEntry? program = some e) (hl : (limits world.files o).result = .ok l)
    (h : Completes world status lines (.run (some program) o)) :
    ∃ runs printed, List.Forall₂ (IsRun e.definition l) (inputs ⟨e.definition, some e⟩ o) runs ∧
      StatusOf runs status ∧ List.Forall₂ (IsPrinted o) runs printed ∧
      lines = printed.flatten := by
  obtain ⟨p, l', runs, printed, hp, hl', hruns, hstatus, hprinted, hlines⟩ := h
  rw [(gives_resolve_entry hfile hentry).result_eq] at hp
  cases hp
  rw [hl] at hl'
  cases hl'
  exact ⟨runs, printed, hruns, hstatus, hprinted, hlines⟩

private theorem catalogEntry?_of_number {program : String} {n : Nat} {b : Catalog.BuiltIn}
    (hn : Text.readCount? program = some n) (hb : Catalog.builtIns[n]? = some b) :
    catalogEntry? program = some b.entry := by
  unfold catalogEntry?
  rw [hn, Option.bind_some, Catalog.byIndex?, Catalog.entries_eq, List.getElem?_map, hb]
  rfl

/-- The lines of text for a run whose last configuration is known. -/
private theorem eq_text_of_isPrinted {m : Machine} {r : Run} {c : Configuration}
    {lines : List String} (hjson : o.json = false) (hlast : r.trace.last? = some c)
    (h : IsPrinted o (m, r) lines) :
    lines = ["Input: " ++ Text.quoted m.input] ++
      (if o.trace then r.trace.entries.map fun e => e.configuration.line e.step else []) ++
      (if o.transitions then r.trace.transitions.map Transition.line else []) ++
      [renderWindow (c.window 10), "Output: " ++ c.tape.contents,
        endLine r.verdict (r.trace.length - 1)] := by
  obtain ⟨c', hlast', hprints⟩ := h
  rw [hlast] at hlast'
  cases hlast'
  cases hprints with
  | document h =>
    rw [hjson] at h
    cases h
  | text => rfl

/-- A word of ones is quoted as it stands. -/
private theorem quoted_of_ones {n : Nat} (h : w.toList = .replicate n '1') :
    Text.quoted w = String.ofList (['"'] ++ w.toList ++ ['"']) := by
  refine Text.quoted_of_ascii fun c hc => ?_
  rw [h] at hc
  obtain rfl := List.eq_of_mem_replicate hc
  decide

/-- The first step of the machine for an even number of ones on a single one. -/
private def firstOnOne : Successor :=
  Machine.successor (.initial "even" "1" '_') ⟨"odd", '1', .right⟩

/-- The second step, which is the last one. -/
private def secondOnOne : Successor :=
  Machine.successor firstOnOne.configuration ⟨"reject", '_', .stay⟩

private def entriesOnOne : List TraceEntry :=
  [⟨0, none, .initial "even" "1" '_'⟩, firstOnOne.entry 1, secondOnOne.entry 2]

private theorem run_on_one {m : Machine} (hd : m.definition = .evenOnes) (hw : m.input = "1") :
    m.run {} = { verdict := .rejected, trace := ⟨entriesOnOne⟩, explored := 3 } := by
  have hk : m.kind = .deterministic := by rw [Machine.kind, hd]; rfl
  have hstart : m.start = .initial "even" "1" '_' := by rw [Machine.start, hd, hw]; rfl
  have hroom : ({} : Limits).depth - 1 = 997 + 1 + 1 := rfl
  have hfirst : (m.step (.initial "even" "1" '_')).successors = [firstOnOne] := by
    rw [Machine.step_eq, hd]
    decide
  have hsecond : (m.step firstOnOne.configuration).successors = [secondOnOne] := by
    rw [Machine.step_eq, hd]
    decide
  have hhalt : m.step secondOnOne.configuration = .halt .reject := by
    rw [Machine.step_eq, hd]
    decide
  rw [Machine.run_of_deterministic hk, Machine.runDirectly, Machine.startEntry, hroom, hstart,
    Machine.follow_succ_of_cons hfirst, Machine.follow_succ_of_cons hsecond,
    Machine.follow_of_nil (by rw [hhalt]; rfl), hhalt]
  rfl

/-- A machine that goes on is stopped at once when its trace has no room for a second entry. -/
private theorem run_of_maxSteps_le_one {m : Machine} {s : Successor} {rest : List Successor}
    (hk : m.kind = .deterministic) (hs : (m.step m.start).successors = s :: rest)
    (h : l.maxSteps ≤ 1) :
    m.run l = { verdict := .timeout, trace := ⟨[m.startEntry]⟩, explored := 1 } := by
  have hdepth : l.depth - 1 = 0 := by
    unfold Limits.depth
    omega
  rw [Machine.run_of_deterministic hk, Machine.runDirectly, hdepth,
    Machine.follow_zero_of_cons hs]
  rfl

private def linesOnOne : List String :=
  [ "Input: \"1\"", "Step 0: State=even, Head=0, Tape=1", "Step 1: State=odd, Head=1, Tape=1",
    "Step 2: State=reject, Head=1, Tape=1", "(even, 1) → (odd, 1, R)",
    "(odd, _) → (reject, _, S)",
    " _  _  _  _  _  _  _  _  _  1 [_] _  _  _  _  _  _  _  _  _  _ ", "Output: 1",
    "Rejected after 2 steps" ]

private theorem lines_on_one {m : Machine} (hd : m.definition = .evenOnes) (hw : m.input = "1")
    {lines : List String}
    (h : IsPrinted { input := some "1", trace := true, transitions := true } (m, m.run {}) lines) :
    lines = linesOnOne := by
  have hlast : (Trace.mk entriesOnOne).last? = some secondOnOne.configuration := by decide
  have hsteps : (entriesOnOne.map fun e => e.configuration.line e.step) =
      [ "Step 0: State=even, Head=0, Tape=1", "Step 1: State=odd, Head=1, Tape=1",
        "Step 2: State=reject, Head=1, Tape=1" ] := by decide +kernel
  have htransitions : (Trace.mk entriesOnOne).transitions.map Transition.line =
      ["(even, 1) → (odd, 1, R)", "(odd, _) → (reject, _, S)"] := by decide
  have hwindow : renderWindow (secondOnOne.configuration.window 10) =
      " _  _  _  _  _  _  _  _  _  1 [_] _  _  _  _  _  _  _  _  _  _ " := by decide
  have houtput : "Output: " ++ secondOnOne.configuration.tape.contents = "Output: 1" := by
    decide +kernel
  have hend : endLine .rejected (entriesOnOne.length - 1) = "Rejected after 2 steps" := by decide
  rw [run_on_one hd hw] at h
  rw [eq_text_of_isPrinted rfl hlast h, hw, quoted_of_ones (n := 1) rfl, hwindow, houtput,
    Trace.length, hend, if_pos rfl, if_pos rfl, hsteps, htransitions]
  rfl

private theorem lines_of_endless {m : Machine} (hd : m.definition = .endless) (hw : m.input = w)
    (hs : (Definition.endless.step (.initial "loop" w '_')).successors ≠ []) {lines : List String}
    (h : IsPrinted { maxSteps := some 1 } (m, m.run { maxSteps := 1 }) lines) :
    lines =
      [ "Input: " ++ Text.quoted w, renderWindow ((Configuration.initial "loop" w '_').window 10),
        "Output: " ++ (Configuration.initial "loop" w '_').tape.contents,
        "Timeout: no halt within 0 steps" ] := by
  have hk : m.kind = .deterministic := by rw [Machine.kind, hd]; rfl
  have hstart : m.start = .initial "loop" w '_' := by rw [Machine.start, hd, hw]; rfl
  have hlast : (Trace.mk [m.startEntry]).last? = some m.start := rfl
  have hend : endLine .timeout 0 = "Timeout: no halt within 0 steps" := by decide
  obtain ⟨s, rest, hs⟩ := List.exists_cons_of_ne_nil hs
  rw [← hd, ← hstart, ← Machine.step_eq] at hs
  rw [run_of_maxSteps_le_one hk hs (Nat.le_refl 1)] at h
  rw [eq_text_of_isPrinted rfl hlast h, Trace.length, List.length_singleton, hend, hw, hstart]
  rfl

/-- A world without files, in which nobody pipes anything. -/
def Surroundings.bare : Surroundings := ⟨fun _ => .missing, .terminal⟩

private theorem completes_on_one {o : RunOptions}
    (ho : o = { input := some "1", trace := true, transitions := true }) :
    ¬ Lacks .bare (.run (some "2") o) ∧
      ∀ {status lines}, Completes .bare status lines (.run (some "2") o) →
        status = 1 ∧ lines = linesOnOne := by
  subst ho
  have hentry : catalogEntry? "2" = some Catalog.BuiltIn.evenOnes.entry :=
    catalogEntry?_of_number (n := 2) (by decide) rfl
  refine ⟨not_lacks_of_entry rfl hentry rfl ?_, fun {status lines} h => ?_⟩
  · intro w hw
    obtain rfl : w = "1" := List.mem_singleton.mp hw
    obtain ⟨m, hload, -⟩ := Catalog.exists_load_of_mem
      (Catalog.entry_mem (b := .evenOnes) (by simp [Catalog.builtIns])) (w := "1") fun s hs => by
        obtain rfl : s = '1' := List.mem_singleton.mp hs
        decide
    exact ⟨m, hload⟩
  · obtain ⟨runs, printed, hruns, hstatus, hprinted, rfl⟩ :=
      exists_printed_of_entry (l := {}) rfl hentry rfl h
    obtain ⟨⟨m, r⟩, _, ⟨hm, hr⟩, hnone, rfl⟩ := List.forall₂_cons_left_iff.mp hruns
    obtain rfl := List.forall₂_nil_left_iff.mp hnone
    obtain rfl : r = m.run {} := hr
    obtain ⟨first, _, hfirst, hnone, rfl⟩ := List.forall₂_cons_left_iff.mp hprinted
    obtain rfl := List.forall₂_nil_left_iff.mp hnone
    obtain ⟨hd, hw⟩ := Machine.load_eq_ok_iff.mp hm
    obtain ⟨x, hx, hrejected, -⟩ | ⟨hseveral, -⟩ := hstatus
    · obtain ⟨rfl, -⟩ := List.cons.inj hx
      refine ⟨hrejected.mpr (by rw [run_on_one hd hw]), ?_⟩
      rw [List.flatten_singleton]
      exact lines_on_one hd hw hfirst
    · exact absurd hseveral (by simp)

private def linesOnSamples : List String :=
  [ "Input: \"\"", " _  _  _  _  _  _  _  _  _  _ [_] _  _  _  _  _  _  _  _  _  _ ",
    "Output: ", "Timeout: no halt within 0 steps", "Input: \"11\"",
    " _  _  _  _  _  _  _  _  _  _ [1] 1  _  _  _  _  _  _  _  _  _ ", "Output: 11",
    "Timeout: no halt within 0 steps" ]

private theorem completes_on_samples {o : RunOptions} (ho : o = { maxSteps := some 1 }) :
    ¬ Lacks .bare (.run (some "5") o) ∧
      ∀ {status lines}, Completes .bare status lines (.run (some "5") o) →
        status = 0 ∧ lines = linesOnSamples := by
  subst ho
  have hentry : catalogEntry? "5" = some Catalog.BuiltIn.endless.entry :=
    catalogEntry?_of_number (n := 5) (by decide) rfl
  have hmem : Catalog.BuiltIn.endless.entry ∈ Catalog.entries :=
    Catalog.entry_mem (by simp [Catalog.builtIns])
  refine ⟨not_lacks_of_entry rfl hentry rfl ?_, fun {status lines} h => ?_⟩
  · intro w hw
    obtain ⟨m, hload, -⟩ := Catalog.exists_load_of_mem hmem ((samples_of_mem hmem).2 w hw)
    exact ⟨m, hload⟩
  · obtain ⟨runs, printed, hruns, hstatus, hprinted, rfl⟩ :=
      exists_printed_of_entry (l := { maxSteps := 1 }) rfl hentry rfl h
    obtain ⟨⟨m, r⟩, _, ⟨hm, hr⟩, hruns', rfl⟩ := List.forall₂_cons_left_iff.mp hruns
    obtain rfl : r = m.run { maxSteps := 1 } := hr
    obtain ⟨⟨m', r⟩, _, ⟨hm', hr⟩, hnone, rfl⟩ := List.forall₂_cons_left_iff.mp hruns'
    obtain rfl : r = m'.run { maxSteps := 1 } := hr
    obtain rfl := List.forall₂_nil_left_iff.mp hnone
    obtain ⟨first, _, hfirst, hprinted', rfl⟩ := List.forall₂_cons_left_iff.mp hprinted
    obtain ⟨second, _, hsecond, hnone, rfl⟩ := List.forall₂_cons_left_iff.mp hprinted'
    obtain rfl := List.forall₂_nil_left_iff.mp hnone
    obtain ⟨hd, hw⟩ := Machine.load_eq_ok_iff.mp hm
    obtain ⟨hd', hw'⟩ := Machine.load_eq_ok_iff.mp hm'
    refine ⟨?_, ?_⟩
    · obtain ⟨x, hx, -⟩ | ⟨-, hstatus⟩ := hstatus
      · cases hx
      · exact hstatus
    · have hwindow : renderWindow ((Configuration.initial "loop" "" '_').window 10) =
          " _  _  _  _  _  _  _  _  _  _ [_] _  _  _  _  _  _  _  _  _  _ " := by decide
      have hwindow' : renderWindow ((Configuration.initial "loop" "11" '_').window 10) =
          " _  _  _  _  _  _  _  _  _  _ [1] 1  _  _  _  _  _  _  _  _  _ " := by decide
      have houtput : "Output: " ++ (Configuration.initial "loop" "" '_').tape.contents =
        "Output: " := by decide +kernel
      have houtput' : "Output: " ++ (Configuration.initial "loop" "11" '_').tape.contents =
        "Output: 11" := by decide +kernel
      rw [lines_of_endless hd hw (by decide) hfirst, lines_of_endless hd' hw' (by decide) hsecond,
        quoted_of_ones (n := 0) rfl, quoted_of_ones (n := 2) rfl, hwindow, hwindow', houtput,
        houtput']
      rfl

end TapeMachine.CommandLine

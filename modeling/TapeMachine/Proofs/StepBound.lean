import TapeMachine.Proofs.LazyExecution
import TapeMachine.Proofs.SafeComputation

/-!
# The step bound of deterministic runs

A deterministic machine makes one computation, and `entryAfter?` is what a trace shows of it after a
number of steps, whatever the limits. A run shows the computation up to the configuration that it
halts in, if there is room for that configuration, and otherwise as many entries as there is room
for. Its trace is therefore a beginning of every longer one.
-/

namespace TapeMachine

namespace Machine

/-- The entry of the computation of a deterministic machine after a number of steps, unless it halts
before. -/
def entryAfter? (m : Machine) : Nat → Option TraceEntry
  | 0 => some m.startEntry
  | n + 1 => (m.entryAfter? n).bind fun e =>
      match m.step e.configuration with
      | .next s => some (s.entry (n + 1))
      | _ => none

/-- The computation gets to a configuration after so many steps, and halts there. -/
def HaltsAfter (m : Machine) (n : Nat) (reason : Halt) : Prop :=
  ∃ e, m.entryAfter? n = some e ∧ m.step e.configuration = .halt reason

/-- The entries are the first ones of the computation, as many as given. -/
def FirstEntries (m : Machine) (length : Nat) (entries : List TraceEntry) : Prop :=
  entries.map some = (List.range length).map m.entryAfter?

variable {m : Machine} {limits limits' : Limits} {c : Configuration} {e : TraceEntry}
  {entries entries' : List TraceEntry} {n k : Nat} {reason : Halt}

theorem entryAfter?_succ_of_next {s : Successor} (he : m.entryAfter? n = some e)
    (hs : m.step e.configuration = .next s) : m.entryAfter? (n + 1) = some (s.entry (n + 1)) := by
  rw [entryAfter?, he, Option.bind_some, hs]

/-- Nothing comes after a halt. -/
theorem HaltsAfter.entryAfter?_eq_none (h : m.HaltsAfter n reason) (hlt : n < k) :
    m.entryAfter? k = none := by
  obtain ⟨e, he, hs⟩ := h
  induction hlt with
  | refl => rw [entryAfter?, he, Option.bind_some, hs]
  | step _ ih => rw [entryAfter?, ih, Option.bind_none]

theorem HaltsAfter.le (h : m.HaltsAfter n reason) (he : m.entryAfter? k = some e) : k ≤ n := by
  by_contra hlt
  rw [h.entryAfter?_eq_none (Nat.lt_of_not_le hlt)] at he
  cases he

/-- A computation halts once only. -/
theorem HaltsAfter.unique {reason' : Halt} (h : m.HaltsAfter n reason)
    (h' : m.HaltsAfter k reason') : n = k := by
  obtain ⟨e, he, -⟩ := id h
  obtain ⟨e', he', -⟩ := id h'
  exact Nat.le_antisymm (h'.le he) (h.le he')

theorem FirstEntries.length_eq (h : m.FirstEntries n entries) : entries.length = n := by
  simpa using congrArg List.length h

/-- The last one of the first entries is the one that the computation gets to. -/
theorem FirstEntries.last? (h : m.FirstEntries (n + 1) entries) (he : m.entryAfter? n = some e) :
    (Trace.mk entries).last? = some e.configuration := by
  have hlast : (entries.map some)[n]? = some (some e) := by
    rw [h, List.getElem?_map, List.getElem?_range (Nat.lt_succ_self n), Option.map_some, he]
  have hentry : entries[n]? = some e := by simpa using hlast
  rw [Trace.last?, List.getLast?_eq_getElem?, h.length_eq, Nat.add_sub_cancel, hentry]
  rfl

/-- Of two beginnings of the computation the shorter one begins the longer one. -/
theorem FirstEntries.prefix_of_le (h : m.FirstEntries n entries) (h' : m.FirstEntries k entries')
    (hle : n ≤ k) : entries <+: entries' := by
  have htake : (entries'.take n).map some = entries.map some :=
    calc (entries'.take n).map some
        = (entries'.map some).take n := List.map_take
      _ = ((List.range k).map m.entryAfter?).take n := by rw [h']
      _ = (List.range n).map m.entryAfter? := by
          rw [← List.map_take, List.take_range, Nat.min_eq_left hle]
      _ = entries.map some := h.symm
  rw [← (Option.some_injective _).list_map htake]
  exact List.take_prefix n entries'

section Deterministic

variable (hk : m.kind = .deterministic)

include hk

theorem step_eq_next_of_mem {s : Successor} (hs : s ∈ (m.step c).successors) :
    m.step c = .next s := by
  cases h : m.step c with
  | next t =>
    rw [h] at hs
    rw [List.mem_singleton.mp hs]
  | branch successors => exact absurd h (step_ne_branch hk c successors)
  | halt reason =>
    rw [h] at hs
    exact absurd hs List.not_mem_nil

/-- A deterministic machine halts where it has no successor. -/
theorem exists_halt_of_nil (hs : (m.step c).successors = []) :
    ∃ reason, m.step c = .halt reason := by
  cases h : m.step c with
  | next t =>
    rw [h] at hs
    cases hs
  | branch successors => exact absurd h (step_ne_branch hk c successors)
  | halt reason => exact ⟨reason, rfl⟩

/-- A recorded computation of a deterministic machine is the beginning of its only one. -/
theorem Records.firstEntries (h : m.Records entries c) : ∃ n e, m.entryAfter? n = some e ∧
    e.configuration = c ∧ entries.length = n + 1 ∧ m.FirstEntries (n + 1) entries := by
  induction h with
  | start => exact ⟨0, m.startEntry, rfl, rfl, rfl, rfl⟩
  | @next entries c s h hs ih =>
    obtain ⟨n, e, he, rfl, hlen, hfirst⟩ := ih
    have hnew := entryAfter?_succ_of_next he (step_eq_next_of_mem hk hs)
    refine ⟨n + 1, _, hnew, rfl, by simp [hlen], ?_⟩
    rw [FirstEntries, List.range_succ, List.map_append, List.map_append, hfirst, hlen]
    simp [hnew]

/-- The computation goes on from every configuration before another one. -/
theorem successors_ne_nil_of_lt (he : m.entryAfter? n = some e) (hlt : n < k)
    {e' : TraceEntry} (he' : m.entryAfter? k = some e') :
    (m.step e.configuration).successors ≠ [] := by
  intro hnil
  obtain ⟨reason, hs⟩ := exists_halt_of_nil hk hnil
  have hle : k ≤ n := HaltsAfter.le ⟨e, he, hs⟩ he'
  omega

end Deterministic

/-- Following a computation records it until it ends or there is no more room. -/
theorem records_follow (room explored : Nat) (h : m.Records entries.reverse c) :
    ∃ c', m.Records (m.follow room entries.length explored c entries).trace.entries c' ∧
      (m.follow room entries.length explored c entries).verdict = (m.step c').ending ∧
      (m.follow room entries.length explored c entries).trace.length ≤ entries.length + room ∧
      ((m.step c').successors ≠ [] →
        (m.follow room entries.length explored c entries).trace.length =
          entries.length + room) := by
  induction room generalizing entries explored c with
  | zero =>
    cases hs : (m.step c).successors with
    | nil =>
      rw [follow_of_nil hs, ← Step.ending_of_successors_eq_nil hs]
      exact ⟨c, h, rfl, by simp [Trace.length], fun hne => absurd hs hne⟩
    | cons s rest =>
      rw [follow_zero_of_cons hs]
      have hend : (m.step c).ending = .timeout := Step.ending_eq_timeout_iff.mpr (by simp [hs])
      exact ⟨c, h, hend.symm, by simp [Trace.length], fun _ => by simp [Trace.length]⟩
  | succ room ih =>
    cases hs : (m.step c).successors with
    | nil =>
      rw [follow_of_nil hs, ← Step.ending_of_successors_eq_nil hs]
      exact ⟨c, h, rfl, by simp [Trace.length], fun hne => absurd hs hne⟩
    | cons s rest =>
      have hnext : m.Records (s.entry entries.length :: entries).reverse s.configuration := by
        have hr := h.next (s := s) (by simp [hs])
        rwa [List.length_reverse, ← List.reverse_cons] at hr
      rw [follow_succ_of_cons hs]
      obtain ⟨c', hr, hv, hle, hfull⟩ := ih (explored + 1) hnext
      rw [List.length_cons] at hr hv hle hfull
      exact ⟨c', hr, hv, by omega, fun hne => by rw [hfull hne]; omega⟩

section Deterministic

variable (hk : m.kind = .deterministic)

include hk

/-- A deterministic run shows the computation up to a configuration whose ending is the verdict, and
leaves room only if nothing follows that configuration. -/
theorem exists_firstEntries_run (limits : Limits) : ∃ n e, m.entryAfter? n = some e ∧
    m.FirstEntries (n + 1) (m.run limits).trace.entries ∧
    (m.run limits).verdict = (m.step e.configuration).ending ∧ n + 1 ≤ limits.depth ∧
    ((m.step e.configuration).successors ≠ [] → n + 1 = limits.depth) := by
  have hpos := limits.depth_pos
  obtain ⟨c, hr, hv, hle, hfull⟩ :=
    records_follow (limits.depth - 1) 1 (show m.Records [m.startEntry].reverse _ from .start)
  obtain ⟨n, e, he, rfl, hlen, hfirst⟩ := hr.firstEntries hk
  rw [Trace.length, hlen, List.length_singleton] at hle hfull
  rw [run_of_deterministic hk]
  exact ⟨n, e, he, hfirst, hv, by omega, fun hne => by rw [hfull hne]; omega⟩

theorem run_of_haltsAfter (h : m.HaltsAfter n reason) (hle : n + 1 ≤ limits.depth) :
    m.FirstEntries (n + 1) (m.run limits).trace.entries ∧
      (m.run limits).verdict = reason.verdict := by
  obtain ⟨k, e, he, hfirst, hv, -, hfull⟩ := exists_firstEntries_run hk limits
  obtain ⟨e', he', hs⟩ := id h
  -- a run that stopped before the halt would have no room left, but there is room for it
  have hkn : k = n := by
    refine Nat.le_antisymm (h.le he) (Nat.le_of_not_lt fun hlt => ?_)
    have := hfull (successors_ne_nil_of_lt hk he hlt he')
    omega
  subst hkn
  obtain rfl := Option.some.inj (he.symm.trans he')
  rw [hs] at hv
  exact ⟨hfirst, hv⟩

theorem run_of_not_haltsAfter (h : ∀ n reason, m.HaltsAfter n reason → limits.depth < n + 1) :
    m.FirstEntries limits.depth (m.run limits).trace.entries ∧
      (m.run limits).verdict = .timeout := by
  obtain ⟨k, e, he, hfirst, hv, hle, hfull⟩ := exists_firstEntries_run hk limits
  have hne : (m.step e.configuration).successors ≠ [] := fun hnil => by
    obtain ⟨reason, hs⟩ := exists_halt_of_nil hk hnil
    have := h k reason ⟨e, he, hs⟩
    omega
  rw [Step.ending_eq_timeout_iff.mpr hne] at hv
  exact ⟨hfull hne ▸ hfirst, hv⟩

private theorem prefix_run_of_le (hle : limits.maxSteps ≤ limits'.maxSteps) :
    (m.run limits).trace.entries <+: (m.run limits').trace.entries := by
  obtain ⟨n, e, he, hfirst, -, hn, -⟩ := exists_firstEntries_run hk limits
  obtain ⟨k, e', he', hfirst', -, -, hfull⟩ := exists_firstEntries_run hk limits'
  -- if the larger bound gave fewer entries, its run would have been cut off before the other one
  refine hfirst.prefix_of_le hfirst' (Nat.succ_le_succ (Nat.le_of_not_lt fun hlt => ?_))
  have hdepth : limits.depth ≤ limits'.depth := max_le_max_left 1 hle
  have := hfull (successors_ne_nil_of_lt hk he' hlt he)
  omega

end Deterministic

/-- The step bound of a deterministic run, exactly. If the computation halts and there is room for
the configuration in which it does, the run shows the computation up to there and has the verdict of
that halt, even if the trace is then full; otherwise it shows as many entries as there is room for
and times out. So a larger bound only lengthens the trace. The limit on configurations has no
influence, and an execution hands out the same entries. -/
theorem run_halts_or_fills (hk : m.kind = .deterministic) (limits : Limits) :
    (∀ n reason, m.HaltsAfter n reason → n + 1 ≤ max 1 limits.maxSteps →
      m.FirstEntries (n + 1) (m.run limits).trace.entries ∧
        (m.run limits).verdict = reason.verdict) ∧
    ((∀ n reason, m.HaltsAfter n reason → max 1 limits.maxSteps < n + 1) →
      m.FirstEntries (max 1 limits.maxSteps) (m.run limits).trace.entries ∧
        (m.run limits).verdict = .timeout) ∧
    (∀ limits' : Limits, limits.maxSteps ≤ limits'.maxSteps →
      (m.run limits).trace.entries <+: (m.run limits').trace.entries) ∧
    (∀ cap, m.run { limits with maxConfigurations := cap } = m.run limits) ∧
    (m.execute limits).Yields (m.run limits).trace.entries (m.run limits).verdict
      (m.run limits).explored := by
  refine ⟨fun _ _ => run_of_haltsAfter hk, run_of_not_haltsAfter hk, fun _ => prefix_run_of_le hk,
    fun cap => ?_, Execution.yields_execute m limits⟩
  rw [run_of_deterministic hk, run_of_deterministic hk]
  rfl

/-- The erasing machine halts in its third configuration. -/
theorem haltsAfter_erasing : erasing.HaltsAfter 2 .noTransition := by
  let erased : Successor := successor erasing.start ⟨"erase", '_', .right⟩
  let back : Successor := successor erased.configuration ⟨"back", '_', .left⟩
  have hstart : erasing.step erasing.start = .next erased := by
    rw [step_eq]
    decide +kernel
  have herased : erasing.step erased.configuration = .next back := by
    rw [step_eq]
    decide +kernel
  have hback : erasing.step back.configuration = .halt .noTransition := by
    rw [step_eq]
    decide +kernel
  have hone : erasing.entryAfter? 1 = some (erased.entry 1) :=
    entryAfter?_succ_of_next rfl hstart
  exact ⟨back.entry 2, entryAfter?_succ_of_next hone herased, hback⟩

/-- With room for three entries the trace is full and the machine has halted; with room for two, and
with a bound of zero, it has not. -/
theorem run_halts_or_fills_erasing : erasing.kind = .deterministic ∧
    erasing.HaltsAfter 2 .noTransition ∧
    (erasing.FirstEntries 3 (erasing.run { maxSteps := 3 }).trace.entries ∧
      (erasing.run { maxSteps := 3 }).verdict = .haltedNonFinal) ∧
    (erasing.FirstEntries 2 (erasing.run { maxSteps := 2 }).trace.entries ∧
      (erasing.run { maxSteps := 2 }).verdict = .timeout) ∧
    (erasing.run { maxSteps := 0 }).trace.entries <+:
      (erasing.run { maxSteps := 3 }).trace.entries := by
  have hlate (bound : Nat) (hb : max 1 bound < 3) : ∀ n reason, erasing.HaltsAfter n reason →
      max 1 bound < n + 1 := fun n reason h => by
    obtain rfl := haltsAfter_erasing.unique h
    exact hb
  exact ⟨rfl, haltsAfter_erasing,
    (run_halts_or_fills rfl { maxSteps := 3 }).1 2 .noTransition haltsAfter_erasing (by decide),
    (run_halts_or_fills rfl { maxSteps := 2 }).2.1 (hlate 2 (by decide)),
    (run_halts_or_fills rfl { maxSteps := 0 }).2.2.1 { maxSteps := 3 } (by decide)⟩

end Machine

end TapeMachine

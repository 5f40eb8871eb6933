import TapeMachine.Proofs.BoundedVerdict
import TapeMachine.Proofs.DeterministicRun
import TapeMachine.Proofs.DiagramPaths

/-!
# The diagram of a machine simulates it

The diagram that is derived from the rules of a machine has an edge for each of them, labelled with
the symbol that the rule reads. Whatever a machine does, on whatever tape, its diagram can do on the
word of the symbols that were read: each transition was made by a rule, and the edge of that rule
leads from the state before it to the state after it. In particular the diagram accepts what is read
along the trace of a run that accepts.
-/

namespace TapeMachine

/-- The symbols that the machine read, one for each recorded transition. -/
def Trace.wordRead (t : Trace) : String := String.ofList (t.transitions.map (·.read))

/-- The edges of a derived diagram are the rules. -/
theorem Automaton.mem_edges_ofDefinition {d : Definition} {p q : State} {s : Symbol} :
    ⟨p, s, q⟩ ∈ (ofDefinition d).edges ↔ ∃ r ∈ d.rulesOf p, r.read = s ∧ r.nextState = q := by
  simp only [ofDefinition, edgeOf, List.mem_flatMap, List.mem_map, Edge.mk.injEq]
  constructor
  · rintro ⟨_, -, r, hr, rfl, hs, hq⟩
    exact ⟨r, hr, hs, hq⟩
  · rintro ⟨r, hr, hs, hq⟩
    exact ⟨p, Definition.mem_sources_of_mem_rulesOf hr, r, hr, rfl, hs, hq⟩

namespace Machine

variable {m : Machine} {c c' : Configuration} {ts : List Transition}

/-- A transition is made along an edge. -/
theorem edge_of_mem_successors {s : Successor} (hs : s ∈ (m.step c).successors) :
    ⟨c.state, s.transition.read, s.configuration.state⟩ ∈
      (Automaton.ofDefinition m.definition).edges := by
  rw [successors_step] at hs
  split_ifs at hs
  · obtain ⟨a, ha, rfl⟩ := List.mem_map.mp hs
    obtain ⟨r, hr, hread, rfl⟩ := Definition.exists_rule_of_mem_actions ha
    exact Automaton.mem_edges_ofDefinition.mpr ⟨r, hr, hread, rfl⟩
  · cases hs

/-- The transitions of a computation are made along a path. -/
theorem Leads.path (h : m.Leads c ts c') :
    (Automaton.ofDefinition m.definition).Path c.state (ts.map (·.read)) c'.state := by
  induction h with
  | refl => exact .nil
  | next _ hs ih =>
    rw [List.map_append]
    exact Automaton.path_concat_iff.mpr ⟨_, ih, edge_of_mem_successors hs⟩

/-- The transitions that a trace records lead to its last configuration. -/
theorem Records.leads {entries : List TraceEntry} (h : m.Records entries c) :
    m.Leads m.start (Trace.mk entries).transitions c := by
  induction h with
  | start => exact .refl
  | @next entries c s _ hs ih =>
    have hlast : (Trace.mk (entries ++ [s.entry entries.length])).transitions =
        (Trace.mk entries).transitions ++ [s.transition] := by
      simp [Trace.transitions, Successor.entry]
    rw [hlast]
    exact ih.next hs

/-- The derived diagram simulates the machine. Every computation, along any branches and of any
length, reads the word of a path from the start state of the diagram to the state that it ends in.
So the diagram accepts the word that is read along the trace of a run that accepts. -/
theorem derived_diagram_simulates {d : Definition} {w : String} (h : load d w = .ok m) :
    (∀ ts c, m.Leads m.start ts c → (Automaton.ofDefinition d).Path
      (Automaton.ofDefinition d).start (ts.map (·.read)) c.state) ∧
    ∀ limits, (m.run limits).verdict = .accepted →
      (Automaton.ofDefinition d).accepts (m.run limits).trace.wordRead = true := by
  obtain ⟨rfl, rfl⟩ := load_eq_ok_iff.mp h
  refine ⟨fun ts c hc => hc.path, fun limits hv => ?_⟩
  obtain ⟨c, hrecords, he⟩ := m.exists_records_run limits
  have haccept : m.definition.isAccepting c.state = true :=
    step_eq_accept_iff.mp (Step.ending_eq_accepted_iff.mp (he.trans hv))
  have hpath := hrecords.leads.path
  refine Automaton.accepts_iff.mpr ⟨c.state, List.contains_iff_mem.mp haccept, ?_⟩
  rw [Trace.wordRead, String.toList_ofList]
  exact hpath

/-- The scanning machine reads its numeral and the blank behind it, and accepts. -/
theorem derived_diagram_simulates_scanning : load .scanner "11" = .ok scanning ∧
    (scanning.run ⟨4, 20⟩).verdict = .accepted ∧
    (Automaton.ofDefinition .scanner).accepts (scanning.run ⟨4, 20⟩).trace.wordRead = true := by
  have hlength : (scanning.reachedList (Limits.mk 4 20).depth).length < 20 := by decide +kernel
  have hroom := Nat.lt_of_le_of_lt (scanning.ncard_reached_le _) hlength
  have haccept : ∃ c ∈ scanning.frontier 3, scanning.definition.isAccepting c.state = true := by
    decide +kernel
  obtain ⟨c, hc, ha⟩ := haccept
  have hwithin : scanning.AcceptsWithin (Limits.mk 4 20).depth :=
    ⟨3, c, by decide, mem_frontier.mp hc, ha⟩
  have hv : (scanning.run ⟨4, 20⟩).verdict = .accepted := by
    rw [run_eq_explore_of_kind rfl (by decide)]
    exact (verdict_eq_accepted_iff hroom).mpr hwithin
  exact ⟨scanning.load_eq, hv, (derived_diagram_simulates scanning.load_eq).2 _ hv⟩

end Machine

end TapeMachine

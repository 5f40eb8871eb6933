import Mathlib.Data.List.NodupEquivFin
import TapeMachine.Proofs.AcceptedWords
import TapeMachine.Proofs.BuiltInMachines

/-!
# Derived diagrams are consistent

The check of a definition and the check of a diagram look at different data: the one at rules by
source state and at sets that may be inferred, the other at a flat list of edges and at declared
lists. A definition that passes the first one nevertheless has a diagram that passes the second
one. Its edges list the rules, each once: source states in increasing order, and the rules of one
source state in their own order. So the edges of a deterministic diagram repeat no state and symbol,
because the rules of no state repeat a symbol.
-/

namespace TapeMachine

namespace Definition

/-- The place of a rule: its source state and its number among the rules of that state. -/
structure RulePlace (d : Definition) where
  source : State
  number : Fin (d.rulesOf source).length

namespace RulePlace

variable {d : Definition}

def rule (p : d.RulePlace) : Rule := (d.rulesOf p.source)[p.number]

def edge (p : d.RulePlace) : Edge := Automaton.edgeOf p.source p.rule

/-- Source states come in increasing order, and the rules of one of them in their own order. -/
def Before (p p' : d.RulePlace) : Prop :=
  p.source < p'.source ∨ p.source = p'.source ∧ p.number.val < p'.number.val

private theorem Before.ne {p p' : d.RulePlace} (h : p.Before p') : p ≠ p' := by
  rintro rfl
  rcases h with h | ⟨-, h⟩
  · exact String.lt_irrefl _ h
  · exact Nat.lt_irrefl _ h

/-- Rules of one source state at different places read different symbols if no two of them compete,
and so the edges of all rules leave their states with different symbols. -/
theorem eq_of_exit_eq (h : ∀ q, ((d.rulesOf q).map (·.read)).Nodup) {p p' : d.RulePlace}
    (he : Automaton.exit p.edge = Automaton.exit p'.edge) : p = p' := by
  obtain ⟨q, i⟩ := p
  obtain ⟨q', i'⟩ := p'
  obtain ⟨rfl, hread⟩ : q = q' ∧ (d.rulesOf q)[i].read = (d.rulesOf q')[i'].read :=
    Prod.mk.inj he
  have hi : ((d.rulesOf q).map (·.read))[i.val]? = ((d.rulesOf q).map (·.read))[i'.val]? := by
    simpa using hread
  have hval := (List.getElem?_inj (by simp) (h q)).mp hi
  rw [Fin.ext hval]

end RulePlace

variable {d : Definition}

/-- The places of all rules, in order. -/
def rulePlaces (d : Definition) : List d.RulePlace :=
  d.sources.flatMap fun q => (List.finRange (d.rulesOf q).length).map fun i => ⟨q, i⟩

private theorem mem_rulePlaces (p : d.RulePlace) : p ∈ d.rulePlaces := by
  have hsource : p.source ∈ d.sources := mem_sources_of_mem_rulesOf (List.getElem_mem p.number.isLt)
  exact List.mem_flatMap.mpr ⟨p.source, hsource, List.mem_map.mpr ⟨p.number, by simp, rfl⟩⟩

private theorem pairwise_rulePlaces (d : Definition) : d.rulePlaces.Pairwise RulePlace.Before := by
  refine List.pairwise_flatMap.mpr ⟨fun q _ => ?_, ?_⟩
  · exact List.pairwise_map.mpr ((List.pairwise_lt_finRange _).imp fun h => .inr ⟨rfl, h⟩)
  · refine (pairwise_sortedSet d.rules.keys).imp fun {q q'} h => ?_
    intro p hp p' hp'
    obtain ⟨i, -, rfl⟩ := List.mem_map.mp hp
    obtain ⟨i', -, rfl⟩ := List.mem_map.mp hp'
    exact .inl h

private theorem nodup_rulePlaces (d : Definition) : d.rulePlaces.Nodup :=
  d.pairwise_rulePlaces.imp RulePlace.Before.ne

private theorem allRules_eq (d : Definition) : d.allRules = d.rules.keys.flatMap d.rulesOf := by
  rw [allRules, Table.keys, List.flatMap_map]
  refine List.flatMap_congr fun e he => ?_
  rw [rulesOf, Table.mem_entries_iff.mp he, Option.getD_some]

end Definition

namespace Automaton

variable {d : Definition}

/-- The edges of a derived diagram are those of the rules, place by place. -/
theorem edges_ofDefinition (d : Definition) :
    (ofDefinition d).edges = d.rulePlaces.map Definition.RulePlace.edge := by
  have hrules (q : State) : (d.rulesOf q).map (edgeOf q) =
      (List.finRange (d.rulesOf q).length).map fun i => Definition.RulePlace.edge ⟨q, i⟩ := by
    conv_lhs => rw [← List.map_getElem_finRange (d.rulesOf q), List.map_map]
    rfl
  simp only [ofDefinition, hrules, Definition.rulePlaces, List.map_flatMap, List.map_map]
  rfl

private theorem length_edges_ofDefinition (d : Definition) :
    (ofDefinition d).edges.length = d.transitionCount := by
  have hsources : d.sources.Perm d.rules.keys := perm_sortedSet d.rules.nodup
  calc (ofDefinition d).edges.length
      = (d.sources.flatMap d.rulesOf).length := by simp [ofDefinition, List.length_flatMap]
    _ = (d.rules.keys.flatMap d.rulesOf).length := (hsources.flatMap_right _).length_eq
    _ = d.transitionCount := by rw [Definition.transitionCount, Definition.allRules_eq]

private theorem kind_ofDefinition : (ofDefinition d).kind = .dfa ↔ d.kind = .deterministic := by
  rw [ofDefinition]
  cases d.kind <;> simp

/-- What the check of a definition establishes is what the check of its diagram asks for. -/
theorem consistent_ofDefinition (h : d.validate = .ok ()) : (ofDefinition d).Consistent := by
  obtain ⟨hstart, hhalt, -, hstates, hsymbols, -⟩ := d.validate_eq_ok_iff.mp h
  obtain ⟨hkeys, htargets⟩ := Definition.ruleStatesFault?_eq_none_iff.mp hstates
  refine ⟨(Definition.startFault?_eq_none_iff.mp hstart).2, fun q hq => ?_, ?_, fun hk => ?_⟩
  · rcases List.mem_append.mp hq with hq | hq
    · exact Definition.haltStatesFault?_eq_none_iff.mp hhalt q (.inl hq)
    · obtain ⟨⟨p, s, t⟩, he, hq⟩ := List.mem_flatMap.mp hq
      obtain ⟨r, hr, -, rfl⟩ := mem_edges_ofDefinition.mp he
      obtain rfl | rfl : q = p ∨ q = r.nextState := by simpa using hq
      · exact hkeys q (mem_sortedSet.mp (Definition.mem_sources_of_mem_rulesOf hr))
      · exact htargets r (Definition.mem_allRules_of_mem_rulesOf hr)
  · rintro ⟨p, s, t⟩ he
    obtain ⟨r, hr, rfl, -⟩ := mem_edges_ofDefinition.mp he
    have hread := Definition.ruleSymbolsFault?_eq_none_iff.mp hsymbols r
      (Definition.mem_allRules_of_mem_rulesOf hr)
    exact hread.1
  · have hreads (q : State) : ((d.rulesOf q).map (·.read)).Nodup :=
      Definition.nodup_reads_of_validate h (kind_ofDefinition.mp hk) q
    rw [edges_ofDefinition, List.map_map]
    exact d.nodup_rulePlaces.map fun _ _ he => Definition.RulePlace.eq_of_exit_eq hreads he

/-- The diagram of a well-formed definition passes the check of diagrams. Its edges list the rules,
each once, by increasing source states and then in the order of the rules; there are as many as the
definition has transitions; and it is a diagram without choice exactly if the definition is
deterministic. -/
theorem derived_diagram_valid (h : d.validate = .ok ()) :
    (ofDefinition d).validate = .ok () ∧
    (∃ place : Fin (ofDefinition d).edges.length → d.RulePlace, place.Bijective ∧
      (∀ i, (ofDefinition d).edges[i] = (place i).edge) ∧
      ∀ i j, i < j → (place i).Before (place j)) ∧
    (ofDefinition d).edges.length = d.transitionCount ∧
    ((ofDefinition d).kind = .dfa ↔ d.kind = .deterministic) := by
  have hlength : (ofDefinition d).edges.length = d.rulePlaces.length := by
    rw [edges_ofDefinition, List.length_map]
  refine ⟨validate_eq_ok_iff.mpr (consistent_ofDefinition h),
    ⟨fun i => d.rulePlaces.get (i.cast hlength), ?_, fun i => ?_, fun i j hij => ?_⟩,
    length_edges_ofDefinition d, kind_ofDefinition⟩
  · exact (d.nodup_rulePlaces.getBijectionOfForallMemList _ Definition.mem_rulePlaces).2.comp
      (finCongr hlength).bijective
  · simp [edges_ofDefinition]
  · exact List.pairwise_iff_get.mp d.pairwise_rulePlaces _ _ hij

/-- The listing of this definition has its source states in another order than the diagram. -/
theorem derived_diagram_valid_palindrome : Definition.palindrome.validate = .ok () ∧
    (ofDefinition .palindrome).validate = .ok () ∧
    (ofDefinition .palindrome).edges.length = 18 ∧ (ofDefinition .palindrome).kind = .dfa := by
  have hvalid : Definition.palindrome.validate = .ok () :=
    Catalog.validate_of_mem (Catalog.entry_mem (b := .palindrome) (by simp [Catalog.builtIns]))
  obtain ⟨hdiagram, -, hlength, hkind⟩ := derived_diagram_valid hvalid
  exact ⟨hvalid, hdiagram, hlength, hkind.mpr rfl⟩

end Automaton

end TapeMachine

import TapeMachine.Proofs.MatchingRules

/-!
# Computations from the same configuration

Two configurations that compare as the same may differ in what they have stored of their tapes. What
a machine does never depends on that: the transitions that lead on from one of them lead on from the
other, to configurations that show the same again, and so for computations of any length. Nothing
that is displayed of configurations tells them apart either. Only the words in which positions are
kept may be too small for one of them and not for the other, and then its computation ends; those of
a machine on an input never come near.
-/

namespace TapeMachine

/-- What a configuration shows: its state, its head, and a symbol at every position. -/
structure Shown where
  state : State
  head : Int
  blank : Symbol
  symbols : Int → Symbol

variable {o : Overflow}

namespace Configuration

def shown (o : Overflow) (c : Configuration) : Shown :=
  { state := c.state, head := c.head, blank := c.tape.blank, symbols := c.tape.shows o }

variable {c d : Configuration}

private theorem shown_eq_iff : c.shown o = d.shown o ↔ c.state = d.state ∧ c.head = d.head ∧
    c.tape.blank = d.tape.blank ∧ ∀ p, c.tape.shows o p = d.tape.shows o p := by
  rw [shown, shown, Shown.mk.injEq, funext_iff]

private theorem equiv_of_shown_eq (h : c.shown .stops = d.shown .stops) : c ≈ d := by
  obtain ⟨hstate, hhead, hblank, hshows⟩ := shown_eq_iff.mp h
  exact equiv_iff.mpr ⟨hstate, hhead, Tape.equiv_iff_read.mpr ⟨hblank, hshows⟩⟩

/-- A comparison answers whether the configurations show the same. -/
theorem equalBy?_eq_some (hc : IsWord c.tape.cells.size) (hd : IsWord d.tape.cells.size)
    {same : Bool} (h : c.equalBy? o d = some same) : same = true ↔ c.shown o = d.shown o := by
  rw [equalBy?] at h
  rw [shown_eq_iff]
  split at h
  · rename_i hstate
    obtain ⟨sameTape, htape, rfl⟩ := Option.map_eq_some_iff.mp h
    rw [Bool.and_eq_true, decide_eq_true_iff, Tape.equalBy?_eq_some hc hd htape]
    exact ⟨fun ⟨⟨hblank, hshows⟩, hhead⟩ => ⟨hstate, hhead, hblank, hshows⟩,
      fun ⟨_, hhead, hblank, hshows⟩ => ⟨⟨hblank, hshows⟩, hhead⟩⟩
  · rename_i hstate
    cases h
    exact iff_of_false Bool.false_ne_true fun hc => hstate hc.1

/-- Nothing that is displayed tells the configurations apart, nor does a comparison: not the line of
a step, not a window of the tape, not the output of runs that end in them. -/
structure SameDisplay (o : Overflow) (c d : Configuration) : Prop where
  line {step : Nat} {x y : String} (hx : c.lineBy? o step = some x)
    (hy : d.lineBy? o step = some y) : x = y
  window {radius : Nat} {x y : List Cell} (hx : c.windowBy? o radius = some x)
    (hy : d.windowBy? o radius = some y) : x = y
  output {x y : String} (hx : c.tape.contentsBy? o = some x)
    (hy : d.tape.contentsBy? o = some y) : x = y
  equal {same : Bool} (h : c.equalBy? o d = some same) : same = true

end Configuration

namespace Tape

variable {s t : Tape}

private theorem contentsBy?_congr (hs : IsWord s.cells.size) (ht : IsWord t.cells.size)
    (hblank : s.blank = t.blank) (h : ∀ p, s.shows o p = t.shows o p) {x y : String}
    (hx : s.contentsBy? o = some x) (hy : t.contentsBy? o = some y) : x = y := by
  obtain ⟨b, hb, rfl⟩ := Option.map_eq_some_iff.mp hx
  obtain ⟨c, hc, rfl⟩ := Option.map_eq_some_iff.mp hy
  rw [(normalFormBy_of_spanBy? hs hb).unique (normalFormBy_of_spanBy? ht hc) hblank h]

private theorem windowBy?_congr (h : ∀ p, s.shows o p = t.shows o p) {p : Int} {radius : Nat}
    {x y : List (Int × Symbol)} (hx : s.windowBy? o p radius = some x)
    (hy : t.windowBy? o p radius = some y) : x = y := by
  unfold windowBy? at hx hy
  obtain ⟨first, hfirst, hx⟩ := Option.bind_eq_some_iff.mp hx
  obtain ⟨last, hlast, hx⟩ := Option.bind_eq_some_iff.mp hx
  rw [hfirst, hlast] at hy
  have hcells : List.Forall₂ Eq x y := by
    refine forall₂_of_mapM_mapM (fun hx hy => ?_) hx hy
    obtain ⟨a, ha, rfl⟩ := Option.map_eq_some_iff.mp hx
    obtain ⟨b, hb, rfl⟩ := Option.map_eq_some_iff.mp hy
    rw [readBy?_eq_some ha, readBy?_eq_some hb, h]
  rwa [List.forall₂_eq_eq_eq] at hcells

/-- Where overflow stops computations, a window that exists is the window. -/
private theorem window_eq_of_windowBy? {p : Int} {radius : Nat} (hr : IsWord radius)
    {cells : List (Int × Symbol)} (h : t.windowBy? .stops p radius = some cells) :
    t.window p radius = cells := by
  unfold windowBy? at h
  obtain ⟨first, hfirst, h⟩ := Option.bind_eq_some_iff.mp h
  obtain ⟨last, hlast, h⟩ := Option.bind_eq_some_iff.mp h
  rw [wrap_of_isWord hr] at hfirst hlast
  obtain ⟨-, rfl⟩ := Overflow.word?_eq_some hfirst
  obtain ⟨-, rfl⟩ := Overflow.word?_eq_some hlast
  have hcount : (p + (radius : Int) - (p - radius) + 1).toNat = 2 * radius + 1 := by omega
  rw [hcount] at h
  rw [window, positionsAround, List.map_map]
  refine map_eq_of_mapM (fun {i cell} hcell => ?_) h
  obtain ⟨a, ha, rfl⟩ := Option.map_eq_some_iff.mp hcell
  rw [readBy?_eq_some ha]
  rfl

private theorem contents_eq_of_contentsBy? {text : String} (hsize : IsWord t.cells.size)
    (h : t.contentsBy? o = some text) : t.contents = text := by
  obtain ⟨block, hblock, -⟩ := Option.map_eq_some_iff.mp h
  obtain ⟨-, hcontents, -⟩ := eq_span_of_spanBy? hsize hblock
  exact Option.some.inj (hcontents.symm.trans h)

end Tape

namespace Configuration

variable {c d : Configuration}

private theorem sameDisplay_of_shown_eq (hc : IsWord c.tape.cells.size)
    (hd : IsWord d.tape.cells.size) (h : c.shown o = d.shown o) : c.SameDisplay o d := by
  obtain ⟨hstate, hhead, hblank, hshows⟩ := shown_eq_iff.mp h
  refine ⟨fun {step x y} hx hy => ?_, fun {radius x y} hx hy => ?_, fun {x y} hx hy => ?_,
    fun {same} hsame => (equalBy?_eq_some hc hd hsame).mpr h⟩
  · obtain ⟨u, hu, rfl⟩ := Option.map_eq_some_iff.mp hx
    obtain ⟨v, hv, rfl⟩ := Option.map_eq_some_iff.mp hy
    rw [hstate, hhead, Tape.contentsBy?_congr hc hd hblank hshows hu hv]
  · obtain ⟨u, hu, rfl⟩ := Option.map_eq_some_iff.mp hx
    obtain ⟨v, hv, rfl⟩ := Option.map_eq_some_iff.mp hy
    rw [hhead] at hu ⊢
    rw [Tape.windowBy?_congr hshows hu hv]
  · exact Tape.contentsBy?_congr hc hd hblank hshows hx hy

end Configuration

/-- The same transition to configurations that show the same. -/
def Successor.SameShown (o : Overflow) (s t : Successor) : Prop :=
  s.transition = t.transition ∧ s.configuration.shown o = t.configuration.shown o

/-- The same kind of step, with successors that show the same in the same order. -/
inductive Step.SameShown (o : Overflow) : Step → Step → Prop where
  | next {s t} (h : Successor.SameShown o s t) : SameShown o (.next s) (.next t)
  | branch {ss ts} (h : List.Forall₂ (Successor.SameShown o) ss ts) :
    SameShown o (.branch ss) (.branch ts)
  | halt (reason : Halt) : SameShown o (.halt reason) (.halt reason)

private theorem Step.sameShown_ofSuccessors {ss ts : List Successor}
    (h : List.Forall₂ (Successor.SameShown o) ss ts) (k : Kind) :
    SameShown o (.ofSuccessors k ss) (.ofSuccessors k ts) := by
  cases k with
  | nondeterministic => exact .branch h
  | deterministic =>
    cases h with
    | nil => exact .halt .noTransition
    | cons h _ => exact .next h

private theorem Step.mem_of_mem_ofSuccessors {k : Kind} {ss : List Successor} {x : Successor}
    (h : x ∈ (ofSuccessors k ss).successors) : x ∈ ss := by
  match k, ss with
  | .nondeterministic, _ => exact h
  | .deterministic, [] => cases h
  | .deterministic, s :: _ => exact List.mem_cons.mpr (.inl (List.mem_singleton.mp h))

theorem Step.SameShown.exists_successor {s t : Step} (h : SameShown o s t) {x : Successor}
    (hx : x ∈ s.successors) : ∃ y ∈ t.successors, Successor.SameShown o x y := by
  cases h with
  | next h => exact exists_of_forall₂ (.cons h .nil) hx
  | branch h => exact exists_of_forall₂ h hx
  | halt => cases hx

namespace Machine

variable {m : Machine} {c d c' d' : Configuration} {read : Symbol} {a : Action} {s t : Successor}
  {ts us : List Transition}

private theorem sameShown_of_successorBy? (h : c.shown o = d.shown o)
    (hs : successorBy? o c read a = some s) (ht : successorBy? o d read a = some t) :
    Successor.SameShown o s t := by
  obtain ⟨hstate, hhead, hblank, hshows⟩ := Configuration.shown_eq_iff.mp h
  have hs := leadsTo_of_successorBy? (r := ⟨read, a.write, a.direction, a.nextState⟩) hs
  have ht := leadsTo_of_successorBy? (r := ⟨read, a.write, a.direction, a.nextState⟩) ht
  refine ⟨by rw [hs.transition, ht.transition, hstate], Configuration.shown_eq_iff.mpr ?_⟩
  refine ⟨hs.state.trans ht.state.symm, ?_, by rw [hs.blank, ht.blank, hblank], fun p => ?_⟩
  · have hsh := hs.head
    rw [hhead, ht.head] at hsh
    exact (Option.some.inj hsh).symm
  · by_cases hp : o.Same p c.head
    · rw [hs.written hp, ht.written (hhead ▸ hp)]
    · rw [hs.others hp, ht.others (hhead ▸ hp), hshows]

/-- Steps from configurations that show the same are the same. -/
theorem sameShown_of_stepBy? (h : c.shown o = d.shown o) {x y : Step}
    (hx : m.stepBy? o c = some x) (hy : m.stepBy? o d = some y) : Step.SameShown o x y := by
  obtain ⟨hstate, hhead, -, hshows⟩ := Configuration.shown_eq_iff.mp h
  rw [stepBy?_eq] at hx hy
  rw [hstate] at hx
  split_ifs at hx hy
  · cases hx
    cases hy
    exact .halt .accept
  · cases hx
    cases hy
    exact .halt .reject
  · obtain ⟨read, hread, hx⟩ := Option.bind_eq_some_iff.mp hx
    obtain ⟨read', hread', hy⟩ := Option.bind_eq_some_iff.mp hy
    obtain rfl : read = read' := by
      rw [Tape.readBy?_eq_some hread, Tape.readBy?_eq_some hread', hhead, hshows]
    obtain ⟨ss, hss, rfl⟩ := Option.map_eq_some_iff.mp hx
    obtain ⟨ts, hts, rfl⟩ := Option.map_eq_some_iff.mp hy
    exact Step.sameShown_ofSuccessors
      (forall₂_of_mapM_mapM (sameShown_of_successorBy? h) hss hts) m.kind

/-- Every successor of a step in words is made by an action. -/
theorem exists_successorBy?_of_mem {step : Step} (hstep : m.stepBy? o c = some step)
    (hs : s ∈ step.successors) : ∃ read a, successorBy? o c read a = some s := by
  rw [stepBy?_eq] at hstep
  split_ifs at hstep
  · cases hstep
    cases hs
  · cases hstep
    cases hs
  · obtain ⟨read, -, hstep⟩ := Option.bind_eq_some_iff.mp hstep
    obtain ⟨successors, hsuccessors, rfl⟩ := Option.map_eq_some_iff.mp hstep
    obtain ⟨a, -, ha⟩ := exists_of_forall₂ (forall₂_of_mapM hsuccessors).flip
      (Step.mem_of_mem_ofSuccessors hs)
    exact ⟨read, a, ha⟩

/-- The cells of what a step in words leaves can be counted. -/
theorem isWord_size_of_stepBy? {step : Step} (hstep : m.stepBy? o c = some step)
    (hs : s ∈ step.successors) : IsWord s.configuration.tape.cells.size := by
  obtain ⟨_, _, hsuccessor⟩ := exists_successorBy?_of_mem hstep hs
  obtain ⟨-, htape, -⟩ := Configuration.applyBy?_eq_some (successorBy?_eq_some hsuccessor).2
  exact (Tape.storeWord?_eq_some htape).2.1

/-- The transitions, made one after the other in words, lead from one configuration to another. -/
inductive LeadsBy (o : Overflow) (m : Machine) (c : Configuration) :
    List Transition → Configuration → Prop where
  | refl : LeadsBy o m c [] c
  | next {ts d step s} (h : LeadsBy o m c ts d) (hstep : m.stepBy? o d = some step)
      (hs : s ∈ step.successors) : LeadsBy o m c (ts ++ [s.transition]) s.configuration

/-- After the transitions overflow ends the computation. -/
def Stops (o : Overflow) (m : Machine) (c : Configuration) (ts : List Transition) : Prop :=
  ∃ d, m.LeadsBy o c ts d ∧ m.stepBy? o d = none

/-- What the configurations show that some number of transitions leads to. -/
def shownAfter (o : Overflow) (m : Machine) (n : Nat) (c : Configuration) : Set Shown :=
  {x | ∃ ts d, ts.length = n ∧ m.LeadsBy o c ts d ∧ d.shown o = x}

private theorem LeadsBy.isWord_size (h : m.LeadsBy o c ts c') (hc : IsWord c.tape.cells.size) :
    IsWord c'.tape.cells.size := by
  cases h with
  | refl => exact hc
  | next _ hstep hs => exact isWord_size_of_stepBy? hstep hs

/-- What leads on from a configuration leads on from another one that shows the same, to one that
shows the same again, unless overflow ends the computation before. -/
theorem LeadsBy.exists_same (hc : m.LeadsBy o c ts c') (h : c.shown o = d.shown o) :
    (∃ d', m.LeadsBy o d ts d' ∧ c'.shown o = d'.shown o) ∨
      ∃ us, us <+: ts ∧ us ≠ ts ∧ m.Stops o d us := by
  induction hc with
  | refl => exact .inl ⟨d, .refl, h⟩
  | @next ts e step s _ hstep hs ih =>
    obtain ⟨e', he, hshown⟩ | ⟨us, hbegins, -, hstops⟩ := ih
    · cases hstep' : m.stepBy? o e' with
      | none =>
        exact .inr ⟨ts, List.prefix_append .., by simp, e', he, hstep'⟩
      | some step' =>
        obtain ⟨y, hy, htransition, hconfiguration⟩ :=
          (sameShown_of_stepBy? hshown hstep hstep').exists_successor hs
        exact .inl ⟨_, htransition ▸ he.next hstep' hy, hconfiguration⟩
    · refine .inr ⟨us, hbegins.trans (List.prefix_append ..), ?_, hstops⟩
      rintro rfl
      have := hbegins.length_le
      simp at this

private theorem shownAfter_subset (h : c.shown o = d.shown o) {n : Nat}
    (hd : ∀ us, us.length < n → ¬ m.Stops o d us) : m.shownAfter o n c ⊆ m.shownAfter o n d := by
  rintro x ⟨ts, c', hn, hc, rfl⟩
  obtain ⟨d', hd', hshown⟩ | ⟨us, hbegins, hne, hstops⟩ := hc.exists_same h
  · exact ⟨ts, d', hn, hd', hshown.symm⟩
  · have hlt : us.length < ts.length :=
      lt_of_le_of_ne hbegins.length_le fun hlength => hne (hbegins.eq_of_length hlength)
    exact absurd hstops (hd us (hn ▸ hlt))

section Confined

variable {length steps : Nat} (h : c.Confined length steps) (hsteps : steps + ts.length < 2 ^ 62)
  (hlength : length < 2 ^ 62)

include h hsteps hlength

theorem LeadsBy.confined (hc : m.LeadsBy o c ts c') : c'.Confined length (steps + ts.length) := by
  induction hc with
  | refl => exact h
  | @next ts d step s _ hstep hs ih =>
    rw [List.length_append, List.length_singleton] at hsteps ⊢
    have hconfined := ih (by omega)
    obtain rfl : m.step d = step := by
      rw [stepBy?_of_confined hconfined (by omega) hlength] at hstep
      exact Option.some.inj hstep
    exact configuration_eq_apply hs ▸ hconfined.apply _

/-- Overflow never ends a computation from where storage and head are confined. -/
theorem not_stops_of_confined : ¬ m.Stops o c ts := by
  rintro ⟨d, hd, hstops⟩
  rw [stepBy?_of_confined (hd.confined h hsteps hlength) hsteps hlength] at hstops
  cases hstops

end Confined

/-- A computation of less than `2 ^ 62` transitions is one in words. -/
theorem Reaches.exists_leadsBy {n : Nat} (h : m.Reaches n c) (hn : n ≤ 2 ^ 62)
    (hlength : m.input.length < 2 ^ 62) (o : Overflow) :
    ∃ ts, ts.length = n ∧ m.LeadsBy o m.start ts c := by
  induction h with
  | start => exact ⟨[], rfl, .refl⟩
  | next hreaches hs ih =>
    obtain ⟨ts, rfl, hts⟩ := ih (by omega)
    have hstep := stepBy?_of_confined hreaches.confined (by omega) hlength m o
    exact ⟨_, by rw [List.length_append, List.length_singleton], hts.next hstep hs⟩

/-- What is computed in words for a configuration, where overflow stops computations, is what the
machine does and what is displayed. -/
structure InWords (m : Machine) (c : Configuration) : Prop where
  step {step : Step} (h : m.stepBy? .stops c = some step) : m.step c = step
  line {step : Nat} {line : String} (h : c.lineBy? .stops step = some line) : c.line step = line
  window {radius : Nat} {cells : List Cell} (hr : IsWord radius)
    (h : c.windowBy? .stops radius = some cells) : c.window radius = cells
  output {text : String} (h : c.tape.contentsBy? .stops = some text) : c.tape.contents = text

private theorem inWords (m : Machine) (hc : IsWord c.tape.cells.size) : m.InWords c := by
  refine ⟨step_eq_of_stepBy?, fun {step line} h => ?_, fun {radius cells} hr h => ?_,
    Tape.contents_eq_of_contentsBy? hc⟩
  · obtain ⟨text, htext, rfl⟩ := Option.map_eq_some_iff.mp h
    rw [Configuration.line, Tape.contents_eq_of_contentsBy? hc htext]
  · obtain ⟨window, hwindow, rfl⟩ := Option.map_eq_some_iff.mp h
    rw [Configuration.window, Tape.window_eq_of_windowBy? hr hwindow]

/-- The start of the erasing machine, with a blank stored on each side of its input. -/
def paddedStart : Configuration :=
  { state := "erase", tape := ⟨-1, #['_', '1', '_'], '_'⟩, head := 0 }

private theorem confined_paddedStart : paddedStart.Confined 2 1 := by
  constructor <;> decide

end Machine

end TapeMachine

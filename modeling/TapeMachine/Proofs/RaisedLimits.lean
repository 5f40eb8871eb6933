import TapeMachine.Proofs.CreationOrder
import TapeMachine.Proofs.DeterministicRun

/-!
# Raised limits

A search with larger limits does what the smaller one did, until the smaller one is cut off; from
there on its tree only grows. So a verdict that does not depend on a cut is the same: a rejection or
a halt is the verdict on the very same tree, and the first accepting node of the smaller tree is the
first one of the larger tree as well, whether it was expanded or found in the full tree.
-/

namespace TapeMachine

theorem Level.Kept.begins {l l' : Level} (h : Kept l l') : Tree.Begins l.nodes l'.nodes :=
  fun _ _ hn => h.nodes hn

namespace Level

variable {cap cap' : Nat}

private theorem kept_extend (cap i d : Nat) (successors : List Successor) (l : Level) :
    Kept l (extend cap i d successors l).1 := by
  induction successors generalizing l with
  | nil => exact .refl l
  | cons s rest ih =>
    rw [extend]
    split_ifs
    · exact .record ..
    · exact ih l
    · exact (Kept.add l i d s).trans (ih _)

/-- A larger limit adds the same successors, as long as the smaller one does not cut them off. -/
theorem extend_of_le (hle : cap ≤ cap') (i d : Nat) (successors : List Successor) (l : Level) :
    extend cap' i d successors l = extend cap i d successors l ∨
      (extend cap i d successors l).2 = true ∧
        Tree.Begins (extend cap i d successors l).1.nodes
          (extend cap' i d successors l).1.nodes := by
  induction successors generalizing l with
  | nil => exact .inl rfl
  | cons s rest ih =>
    by_cases hcap : cap ≤ l.nodes.size
    · refine .inr ?_
      have hcut : extend cap i d (s :: rest) l = (l.record .timeout i, true) := by
        rw [extend, if_pos hcap]
      rw [hcut]
      exact ⟨rfl, (kept_extend cap' i d (s :: rest) l).begins⟩
    · have hcap' : ¬ cap' ≤ l.nodes.size := by omega
      rw [extend, extend, if_neg hcap, if_neg hcap']
      split_ifs
      · exact ih l
      · exact ih _

end Level

/-- The expansion of a level was cut off by a limit, and a larger one goes on from there. -/
structure Level.CutOff (last last' : Bool) (r r' : Level × Option Stop) : Prop where
  timeout : (r.1.outcomes.first? .timeout).isSome
  limit : r.2 = some .capped ∨ last = true ∧ last' = false
  begins : Tree.Begins r.1.nodes r'.1.nodes

/-- A tree was cut off by the limits, and one with larger limits goes on from there. -/
structure Tree.CutOff (deeper : Prop) (t t' : Tree) : Prop where
  timeout : (t.outcomes.first? .timeout).isSome
  limit : t.stop = some .capped ∨ deeper
  begins : Begins t.nodes t'.nodes

namespace Machine

variable {m : Machine} {limits limits' : Limits} {cap cap' : Nat}

private theorem kept_expandLevel (m : Machine) (cap depth : Nat) (last : Bool)
    (frontier : List (Nat × Configuration)) (l : Level) :
    Level.Kept l (m.expandLevel cap depth last frontier l).1 := by
  induction frontier generalizing l with
  | nil => exact .refl l
  | cons x rest ih =>
    obtain ⟨i, c⟩ := x
    have hk := Level.kept_extend cap i depth (m.step c).successors l
    rw [expandLevel_cons]
    split_ifs
    · exact .record ..
    · exact (Level.Kept.record ..).trans (ih _)
    · exact (Level.Kept.record ..).trans (ih _)
    · exact hk
    · exact hk.trans (ih _)

/-- The last level adds no nodes. -/
theorem expandLevel_last (m : Machine) (cap depth : Nat) (frontier : List (Nat × Configuration))
    (l : Level) : (m.expandLevel cap depth true frontier l).1.nodes = l.nodes ∧
      (m.expandLevel cap depth true frontier l).1.next = l.next := by
  induction frontier generalizing l with
  | nil => exact ⟨rfl, rfl⟩
  | cons x rest ih =>
    obtain ⟨i, c⟩ := x
    rw [expandLevel_cons, if_pos rfl]
    split_ifs
    · exact ⟨rfl, rfl⟩
    · exact ih _
    · exact ih _

/-- A level is expanded in the same way with larger limits, unless the smaller ones cut it off. -/
theorem expandLevel_of_le (m : Machine) (hcap : cap ≤ cap') {last last' : Bool}
    (hlast : last' = true → last = true) (depth : Nat) (frontier : List (Nat × Configuration))
    (l : Level) :
    m.expandLevel cap' depth last' frontier l = m.expandLevel cap depth last frontier l ∨
      Level.CutOff last last' (m.expandLevel cap depth last frontier l)
        (m.expandLevel cap' depth last' frontier l) := by
  induction frontier generalizing l with
  | nil => exact .inl rfl
  | cons x rest ih =>
    obtain ⟨i, c⟩ := x
    have hk' := m.kept_expandLevel cap' depth last' ((i, c) :: rest) l
    by_cases ha : m.step c = .halt .accept
    · rw [expandLevel_cons, expandLevel_cons, if_pos ha, if_pos ha]
      exact .inl rfl
    by_cases hs : (m.step c).successors = []
    · rw [expandLevel_cons, expandLevel_cons, if_neg ha, if_neg ha, if_pos hs, if_pos hs]
      exact ih _
    have hx := m.expandLevel_cons cap depth last i c rest l
    have hx' := m.expandLevel_cons cap' depth last' i c rest l
    rw [if_neg ha, if_neg hs] at hx hx'
    cases last' with
    | true =>
      obtain rfl := hlast rfl
      rw [hx, hx', if_pos rfl, if_pos rfl]
      exact ih _
    | false =>
      cases last with
      | true =>
        -- only the smaller limits end the paths here
        rw [if_pos rfl] at hx
        refine .inr ⟨?_, .inr ⟨rfl, rfl⟩, ?_⟩
        · rw [hx]
          exact (m.kept_expandLevel ..).isSome (l.outcomes.isSome_first?_record .timeout i)
        · rw [hx, (m.expandLevel_last ..).1]
          exact hk'.begins
      | false =>
        rw [if_neg Bool.false_ne_true] at hx hx'
        rcases Level.extend_of_le hcap i depth (m.step c).successors l with he | ⟨hfull, hb⟩
        · rw [hx, hx', he]
          split_ifs
          · exact .inl rfl
          · exact ih _
        · rw [if_pos hfull] at hx
          refine .inr ⟨?_, .inl (by rw [hx]), ?_⟩
          · rw [hx]
            exact (Level.extend_full (Prod.ext rfl hfull)).1
          · rw [hx, hx']
            split_ifs
            · exact hb
            · exact hb.trans (m.kept_expandLevel ..).begins

private theorem begins_expandLevels (m : Machine) (cap room depth : Nat)
    (frontier : List (Nat × Configuration)) (nodes : Array Node) (o : Outcomes) :
    Tree.Begins nodes (m.expandLevels cap room depth frontier nodes o).nodes := by
  induction room generalizing depth frontier nodes o with
  | zero => exact fun _ _ hn => hn
  | succ room ih =>
    cases frontier with
    | nil => exact fun _ _ hn => hn
    | cons x rest =>
      have hk := (m.kept_expandLevel cap depth (room == 0) (x :: rest)
        { nodes, outcomes := o }).begins
      rw [expandLevels_cons]
      split
      · rename_i he
        rw [he] at hk
        exact hk
      · rename_i he
        rw [he] at hk
        exact hk.trans (ih _ _ _ _)

/-- Where a level was cut off, so is the tree. -/
theorem cutOff_expandLevels {room room' depth : Nat} {x : Nat × Configuration}
    {rest : List (Nat × Configuration)} {nodes : Array Node} {o : Outcomes}
    (h : Level.CutOff (room == 0) (room' == 0)
      (m.expandLevel cap depth (room == 0) (x :: rest) { nodes, outcomes := o })
      (m.expandLevel cap' depth (room' == 0) (x :: rest) { nodes, outcomes := o })) :
    Tree.CutOff (room < room') (m.expandLevels cap (room + 1) depth (x :: rest) nodes o)
      (m.expandLevels cap' (room' + 1) depth (x :: rest) nodes o) := by
  obtain ⟨htimeout, hlimit, hlevel⟩ := h
  have hdeeper (hl : (room == 0) = true ∧ (room' == 0) = false) : room = 0 ∧ room < room' := by
    rw [beq_iff_eq, beq_eq_false_iff_ne] at hl
    omega
  have hbegins : Tree.Begins
      (m.expandLevel cap depth (room == 0) (x :: rest) { nodes, outcomes := o }).1.nodes
      (m.expandLevels cap' (room' + 1) depth (x :: rest) nodes o).nodes := by
    rw [expandLevels_cons]
    split
    · rename_i he
      rwa [he] at hlevel
    · rename_i he
      rw [he] at hlevel
      exact hlevel.trans (m.begins_expandLevels _ _ _ _ _ _)
  rw [expandLevels_cons m cap]
  split
  · rename_i he
    rw [he] at htimeout hlimit hbegins
    exact ⟨htimeout, hlimit.imp id fun hl => (hdeeper hl).2, hbegins⟩
  · rename_i he
    rw [he] at htimeout hlimit hbegins
    obtain ⟨rfl, hlt⟩ := hdeeper (hlimit.resolve_left nofun)
    exact ⟨htimeout, .inr hlt, hbegins⟩

/-- Levels are expanded in the same way with larger limits, unless the smaller ones cut them off. -/
theorem expandLevels_of_le (m : Machine) (hcap : cap ≤ cap') {room room' : Nat}
    (hroom : room ≤ room') (depth : Nat) (frontier : List (Nat × Configuration))
    (nodes : Array Node) (o : Outcomes) :
    m.expandLevels cap' (room' + 1) depth frontier nodes o =
        m.expandLevels cap (room + 1) depth frontier nodes o ∨
      Tree.CutOff (room < room') (m.expandLevels cap (room + 1) depth frontier nodes o)
        (m.expandLevels cap' (room' + 1) depth frontier nodes o) := by
  induction room using Nat.strong_induction_on generalizing room' depth frontier nodes o with
  | _ room ih =>
    cases frontier with
    | nil => exact .inl rfl
    | cons x rest =>
      have hlast : (room' == 0) = true → (room == 0) = true := by
        simp only [beq_iff_eq]
        omega
      have hlevel := m.expandLevel_of_le hcap hlast depth (x :: rest) { nodes, outcomes := o }
      rcases hlevel with he | hcut
      · rw [expandLevels_cons, expandLevels_cons, he]
        split
        · exact .inl rfl
        · rename_i l hl
          cases room with
          | zero =>
            -- the last level leaves nothing for a larger depth
            have hnext : (m.expandLevel cap depth (0 == 0) (x :: rest)
                { nodes, outcomes := o }).1.next = [] := (m.expandLevel_last ..).2
            rw [hl] at hnext
            rw [hnext]
            exact .inl (by rw [List.reverse_nil, expandLevels_nil, expandLevels_nil])
          | succ room =>
            obtain ⟨k', rfl⟩ : ∃ k', room' = k' + 1 := ⟨room' - 1, by omega⟩
            refine (ih room (Nat.lt_succ_self _) (by omega) _ _ _ _).imp_right fun hc => ?_
            exact ⟨hc.timeout, hc.limit.imp_right fun h => by omega, hc.begins⟩
      · exact .inr (cutOff_expandLevels hcut)

/-- The tree of larger limits is the same, unless the smaller ones cut it off. -/
theorem tree_of_le (m : Machine) (hs : limits.maxSteps ≤ limits'.maxSteps)
    (hc : limits.maxConfigurations ≤ limits'.maxConfigurations) :
    m.tree limits' = m.tree limits ∨
      Tree.CutOff (limits.depth < limits'.depth) (m.tree limits) (m.tree limits') := by
  have hd : limits.depth ≤ limits'.depth := max_le_max_left 1 hs
  have hpos := limits.depth_pos
  have hroom : limits.depth = limits.depth - 1 + 1 := by omega
  have hroom' : limits'.depth = limits'.depth - 1 + 1 := by omega
  have h := m.expandLevels_of_le hc (show limits.depth - 1 ≤ limits'.depth - 1 by omega) 0
    [(0, m.start)] #[{ parent := none, entry := m.startEntry }] {}
  rw [← hroom, ← hroom'] at h
  refine h.imp_right fun hcut => ⟨hcut.timeout, hcut.limit.imp_right fun h => by omega, hcut.begins⟩

theorem explore_of_tree_eq (h : m.tree limits' = m.tree limits) :
    m.explore limits' = m.explore limits := by
  rw [explore, explore, h]

/-- The first accepting node of a tree decides every exploration whose tree begins like it. -/
theorem decided_of_begins (hb : Tree.Begins (m.tree limits).nodes (m.tree limits').nodes)
    (hv : (m.explore limits).verdict = .accepted) :
    (m.explore limits').verdict = .accepted ∧
      (m.explore limits').path = (m.explore limits).path := by
  obtain ⟨i, n, hd, hn, he, hl⟩ := m.explore_decided limits
  obtain ⟨i', n', hd', hn', he', hl'⟩ := m.explore_decided limits'
  rw [hv] at hd he
  have hv' := verdict_eq_accepted_of_mem (Array.mem_of_getElem? (hb i n hn)) he
  rw [hv'] at hd' he'
  have hfirst := noneBefore_of_settle (by decide) (Outcomes.decide_eq_some_iff.mp hd).1
  have hfirst' := noneBefore_of_settle (by decide) (Outcomes.decide_eq_some_iff.mp hd').1
  have hi : i' = i := by
    rcases Nat.lt_trichotomy i' i with hlt | heq | hgt
    · -- an earlier node of the larger tree is one of the smaller tree
      have hlt' := Nat.lt_trans hlt (Array.getElem?_eq_some_iff.mp hn).1
      have hold := Array.getElem?_eq_getElem hlt'
      obtain rfl := Option.some.inj ((hb _ _ hold).symm.trans hn')
      exact absurd he' (hfirst i' _ hlt hold)
    · exact heq
    · exact absurd he (hfirst' i n hgt (hb i n hn))
  subst hi
  exact ⟨hv', hl'.unique (hl.begins hb)⟩

/-- An exploration that was not cut off is not changed by larger limits, except that more may be
explored where it accepts. -/
theorem explore_of_le (hs : limits.maxSteps ≤ limits'.maxSteps)
    (hc : limits.maxConfigurations ≤ limits'.maxConfigurations)
    (hv : (m.explore limits).verdict ≠ .timeout) :
    (m.explore limits').verdict = (m.explore limits).verdict ∧
      (m.explore limits').path = (m.explore limits).path ∧
      ((m.explore limits).verdict ≠ .accepted →
        (m.explore limits').explored = (m.explore limits).explored) := by
  rcases m.tree_of_le hs hc with he | hcut
  · rw [explore_of_tree_eq he]
    exact ⟨rfl, rfl, fun _ => rfl⟩
  · have ha : (m.explore limits).verdict = .accepted := by
      by_contra hne
      exact hv (verdict_eq_timeout_of_isSome hcut.timeout hne)
    obtain ⟨hv', hpath⟩ := decided_of_begins hcut.begins ha
    exact ⟨hv'.trans ha.symm, hpath, fun hne => absurd ha hne⟩

/-- Two runs are those of explorations whose limits compare as those of the runs do. -/
theorem exists_runs_eq_explore (m : Machine) (hs : limits.maxSteps ≤ limits'.maxSteps)
    (hc : limits.maxConfigurations ≤ limits'.maxConfigurations) :
    ∃ e e' : Limits, e.maxSteps ≤ e'.maxSteps ∧ e.maxConfigurations ≤ e'.maxConfigurations ∧
      m.run limits = (m.explore e).run ∧ m.run limits' = (m.explore e').run := by
  cases hk : m.kind with
  | nondeterministic =>
    exact ⟨limits, limits', hs, hc, run_of_nondeterministic hk limits,
      run_of_nondeterministic hk limits'⟩
  | deterministic =>
    -- a deterministic run knows no limit on configurations
    have hd : limits.depth ≤ limits'.depth := max_le_max_left 1 hs
    exact ⟨{ limits with maxConfigurations := limits'.depth },
      { limits' with maxConfigurations := limits'.depth }, hs, Nat.le_refl _,
      run_eq_explore_of_depth_le hk hd, run_eq_explore_of_depth_le hk (Nat.le_refl _)⟩

/-- A definitive answer is not changed by larger limits: the verdict and the trace of a run that
was not cut off stay the same, and unless it accepts, so does the number of configurations that were
explored. -/
theorem run_of_le (m : Machine) (limits limits' : Limits)
    (hs : limits.maxSteps ≤ limits'.maxSteps)
    (hc : limits.maxConfigurations ≤ limits'.maxConfigurations)
    (hv : (m.run limits).verdict ≠ .timeout) :
    (m.run limits').verdict = (m.run limits).verdict ∧
      (m.run limits').trace = (m.run limits).trace ∧
      ((m.run limits).verdict ≠ .accepted →
        (m.run limits').explored = (m.run limits).explored) := by
  obtain ⟨e, e', hse, hce, he, he'⟩ := m.exists_runs_eq_explore hs hc
  rw [he] at hv
  obtain ⟨hverdict, hpath, hexplored⟩ := explore_of_le hse hce hv
  rw [he, he']
  exact ⟨hverdict, congrArg Trace.mk hpath, hexplored⟩

end Machine

/-- Chooses between two states on the empty input, the first of which accepts. -/
def Definition.chooser : Definition where
  name := "choose"
  kind := .nondeterministic
  inputAlphabet := ['1']
  startState := "choose"
  acceptStates := ["yes"]
  rules := ⟨[("choose", [⟨'_', '_', .stay, "yes"⟩, ⟨'_', '_', .stay, "choose"⟩])], by decide⟩

/-- The choosing machine on the empty input. -/
def Machine.choosing : Machine where
  definition := .chooser
  input := ""
  table := Definition.chooser.compile
  table_eq := rfl
  valid := by decide +kernel
  fits := by decide +kernel

/-- The tree is full before its accepting node is expanded, and there is room for it later. -/
theorem Machine.run_of_le_choosing :
    (choosing.explore { maxSteps := 3, maxConfigurations := 2 }).capped = true ∧
      (choosing.run { maxSteps := 3, maxConfigurations := 2 }).verdict = .accepted ∧
      (choosing.run { maxSteps := 8, maxConfigurations := 50 }).verdict = .accepted ∧
      (choosing.run { maxSteps := 8, maxConfigurations := 50 }).trace =
        (choosing.run { maxSteps := 3, maxConfigurations := 2 }).trace := by
  let yes : Successor := successor choosing.start ⟨"yes", '_', .stay⟩
  have hstep : choosing.step choosing.start =
      .branch [yes, successor choosing.start ⟨"choose", '_', .stay⟩] := by
    rw [step_eq]
    decide +kernel
  have htree : choosing.tree { maxSteps := 3, maxConfigurations := 2 } =
      { nodes := #[{ parent := none, entry := choosing.startEntry },
          { parent := some 0, entry := yes.entry 1 }]
        outcomes := { timeout := some 0 }
        stop := some .capped } := by
    simp [tree, Limits.depth, expandLevels_cons, expandLevel_cons, hstep, Level.extend,
      Step.successors, Outcomes.record]
  have hmem : { parent := some 0, entry := yes.entry 1 } ∈
      (choosing.tree { maxSteps := 3, maxConfigurations := 2 }).nodes := by simp [htree]
  have hends : (choosing.step yes.configuration).ending = .accepted := by
    rw [step_eq]
    decide +kernel
  have haccepted : (choosing.run { maxSteps := 3, maxConfigurations := 2 }).verdict = .accepted :=
    verdict_eq_accepted_of_mem hmem hends
  obtain ⟨hverdict, htrace, -⟩ := run_of_le choosing { maxSteps := 3, maxConfigurations := 2 }
    { maxSteps := 8, maxConfigurations := 50 } (by decide) (by decide)
    (by rw [haccepted]; decide)
  exact ⟨by simp [explore, htree], haccepted, hverdict.trans haccepted, htrace⟩

end TapeMachine

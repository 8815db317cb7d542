import Dwell.Proofs.Simulation.Repeating
import Dwell.Proofs.Simulation.Stocking

/-!
# The order of events

Events collide when they write the same cell at the same time. A run brings its events into the
order of time, so of two that do not collide either the earlier one comes first in any case, or
both are applied in one step and their writes commute. So lists of events
in which those that collide have the same order are, once they are sorted, the same cell by cell
(`shuffled_sortEvents`). They lead through the same passes (`Passes.shuffle`) and to the same
reports (`Scenario.runs_permute`).
-/

namespace Dwell

/-- The cell that an event writes: the object, the property and, unless that is an enumeration, the
element. -/
def Scenario.cell (sc : Scenario) (e : Event) : String × String × Option Nat :=
  (e.host, e.property, Property.elementAt? e.index
    ((sc.hosts.find? (·.name == e.host)).bind (·.host.property? e.property)))

/-- The events write the same cell at the same time. -/
def Scenario.Collide (sc : Scenario) (e e' : Event) : Prop :=
  e.time = e'.time ∧ sc.cell e = sc.cell e'

instance (sc : Scenario) (e e' : Event) : Decidable (sc.Collide e e') :=
  inferInstanceAs (Decidable (e.time = e'.time ∧ sc.cell e = sc.cell e'))

/-- The scenario with its events in another order: at each position stands the one that was at the
position given for it. -/
def Scenario.permute (sc : Scenario) (σ : Equiv.Perm (Fin sc.events.length)) : Scenario :=
  { sc with events := List.ofFn fun i => sc.events[σ i] }

/-- The scenario's simulation can be built, and one of its runs finishes. -/
def Scenario.Succeeds (sc : Scenario) : Prop :=
  ∃ s n, sc.build.result = .ok s ∧ (Simulation.afterRuns s n).run.ending = .finished

/-- The step, but for the order in which its events were applied. -/
def Step.bare (st : Step) : Step :=
  { st with applied := [] }

def Run.bare (run : Run) : Run :=
  { run with steps := run.steps.map (·.bare) }

section Lists

/-- Lists of events in the order of time that have the same ones for each cell, in the same
order. -/
structure Shuffled {κ : Type} [DecidableEq κ] (cell : Event → κ) (es es' : List Event) : Prop where
  sorted : es.Pairwise (·.time ≤ ·.time)
  sorted' : es'.Pairwise (·.time ≤ ·.time)
  cells : ∀ c, es'.filter (cell · = c) = es.filter (cell · = c)

variable {κ : Type} [DecidableEq κ] {cell : Event → κ} {es es' : List Event}

/-- Of lists in the order of time, one that has the same events of each time is the same. -/
theorem eq_of_filter_time : ∀ {es es' : List Event}, es.Pairwise (·.time ≤ ·.time) →
    es'.Pairwise (·.time ≤ ·.time) →
    (∀ t, es'.filter (·.time = t) = es.filter (·.time = t)) → es' = es
  | [], es', _, _, h => List.eq_nil_iff_forall_not_mem.2 fun e he => by
    simpa using (mem_iff_of_filter h e).1 he
  | e :: es, [], _, _, h => by simpa using h e.time
  | e :: es, e' :: es', hs, hs', h => by
    have hmem : ∀ a, a ∈ e' :: es' ↔ a ∈ e :: es := mem_iff_of_filter h
    have hle : ∀ a ∈ e :: es, e.time ≤ a.time := by simpa using (List.pairwise_cons.1 hs).1
    have hle' : ∀ a ∈ e' :: es', e'.time ≤ a.time := by simpa using (List.pairwise_cons.1 hs').1
    have htime : e'.time = e.time := le_antisymm (hle' e ((hmem e).2 (by simp)))
      (hle e' ((hmem e').1 (by simp)))
    have hhead := h e.time
    simp only [List.filter_cons, htime, decide_true, if_true, List.cons.injEq] at hhead
    obtain ⟨rfl, -⟩ := hhead
    congr 1
    refine eq_of_filter_time hs.of_cons hs'.of_cons fun t => ?_
    have ht := h t
    simp only [List.filter_cons] at ht
    split at ht
    · exact (List.cons.inj ht).2
    · exact ht

theorem sortEvents_eq_self (hs : es.Pairwise (·.time ≤ ·.time)) : sortEvents es = es :=
  eq_of_filter_time hs (pairwise_sortEvents es) (filter_sortEvents es)

/-- Sorting brings events that stay in order where they collide into the same order for each
cell. -/
theorem shuffled_sortEvents (h : ∀ t c, es'.filter (fun e => e.time = t ∧ cell e = c)
      = es.filter fun e => e.time = t ∧ cell e = c) :
    Shuffled cell (sortEvents es) (sortEvents es') := by
  refine ⟨pairwise_sortEvents es, pairwise_sortEvents es', fun c => ?_⟩
  refine eq_of_filter_time ((pairwise_sortEvents es).filter _)
    ((pairwise_sortEvents es').filter _) fun t => ?_
  have hsplit : ∀ events : List Event, ((sortEvents events).filter (cell · = c)).filter (·.time = t)
      = events.filter fun e => e.time = t ∧ cell e = c := by
    intro events
    rw [List.filter_comm, filter_sortEvents, List.filter_filter]
    simp only [Bool.decide_and, Bool.and_comm]
  rw [hsplit, hsplit, h]

namespace Shuffled

theorem filter (h : Shuffled cell es es') (p : Event → Bool) :
    Shuffled cell (es.filter p) (es'.filter p) := by
  refine ⟨h.sorted.filter p, h.sorted'.filter p, fun c => ?_⟩
  rw [List.filter_comm, h.cells, List.filter_comm]

end Shuffled

end Lists

namespace Simulation

variable {w : Window} {r r' : Registry} {pending pending' : List Event} {now wake : Instant}
  {run : Run} {st : Step}

section Pending

variable {κ : Type} [DecidableEq κ] {cell : Event → κ}

theorem due_shuffled (h : Shuffled cell pending pending') (now : Instant) :
    Shuffled cell (due now pending) (due now pending') := by
  rw [due_eq_filter h.sorted, due_eq_filter h.sorted']
  exact h.filter _

theorem later_shuffled (h : Shuffled cell pending pending') (now : Instant) :
    Shuffled cell (later now pending) (later now pending') := by
  rw [later_eq_filter h.sorted, later_eq_filter h.sorted']
  exact h.filter _

/-- The time of the next step does not depend on the order of the events of one time. -/
theorem next_shuffled (h : Shuffled cell pending pending') (w : Window) (now wake : Instant) :
    next w pending' now wake = next w pending now wake := by
  have hcapped : ∀ t, capped pending' t = capped pending t := fun t =>
    eq_of_forall_le_iff fun s => by
      simp only [le_capped_iff h.sorted, le_capped_iff h.sorted', mem_iff_of_filter h.cells]
  simp only [next, hcapped]

end Pending

section Runs

/-- What a step does depends on the order of its events for each cell alone. -/
theorem takes_of_cells {es : List Event} (ht : r.Takes st r') (hr : r.IsStocked)
    (hcells : ∀ c, es.filter (r.cell · = c) = st.applied.filter (r.cell · = c)) :
    r.Takes { st with applied := es } r' := by
  have haccepts := ht.accepts
  obtain ⟨between, ha, htick⟩ := ht
  have hes : ∀ e ∈ es, r.Accepts e := fun e he =>
    haccepts e ((mem_iff_of_filter hcells e).1 he)
  have hnone := Registry.applyEvents_eq_none_iff.2 hes
  have hsame := Registry.applyEvents_of_cells hr hes hcells
  rw [ha] at hsame
  exact ⟨between, Prod.ext hsame (Prod.ext (Registry.applied_applyEvents es r hnone) hnone), htick⟩

/-- With its events shuffled, a run that finishes goes through the same passes. -/
theorem Passes.shuffle (h : Passes w r pending now run) (hf : run.ending = .finished)
    (hr : r.IsStocked) : ∀ {pending'}, Shuffled r.cell pending pending' →
    ∃ run', Passes w r pending' now run' ∧ run'.bare = run.bare := by
  induction h with
  | failed _ | stuck _ _ _ _ => cases hf
  | @finished r pending r' st he ht hstop =>
    intro pending' h
    have ht' := takes_of_cells ht hr (he ▸ (due_shuffled h st.now).cells)
    rw [← next_shuffled (later_shuffled h st.now)] at hstop
    have hpasses := Passes.finished (by exact rfl) ht' hstop
    exact ⟨_, hpasses, rfl⟩
  | @passed r pending r' now run st he ht hnext hle hlt _ ih =>
    intro pending' h
    have ht' := takes_of_cells ht hr (he ▸ (due_shuffled h st.now).cells)
    have hlater := later_shuffled h st.now
    rw [← next_shuffled hlater] at hnext
    rw [← Registry.cell_of_fixed ht.fixed] at hlater
    obtain ⟨run', hrun', hbare⟩ := ih hf (ht.stocked hr) hlater
    have hpasses := Passes.passed (by exact rfl) ht' hnext hle hlt hrun'
    refine ⟨_, hpasses, ?_⟩
    simp only [Run.bare, Run.mk.injEq] at hbare ⊢
    simp only [List.map_cons, hbare, and_self, and_true]
    rfl

variable {s : Simulation} {events : List Event}

theorem events_afterRuns (s : Simulation) : ∀ n, (s.afterRuns n).events = s.events
  | 0 => rfl
  | n + 1 => s.events_afterRuns n

/-- What is reported of a run does not tell in which order its events were applied. -/
theorem report_bare (s : Simulation) (run : Run) : s.report run.bare = s.report run := by
  simp only [report, Run.bare, Run.stateEntries, List.length_map, List.flatMap_map]
  rfl

theorem after_bare (s : Simulation) (run : Run) : s.after run.bare = s.after run := by
  simp only [after, Run.bare, Run.stateEntries, List.flatMap_map]
  rfl

section Shuffled

variable (hr : s.registry.IsStocked) (h : Shuffled s.registry.cell s.events events)
  (hf : ∀ n, (s.afterRuns n).run.ending = .finished)
include hr h hf

theorem bare_run_shuffled (n : Nat) :
    ({ s.afterRuns n with events } : Simulation).run.bare = (s.afterRuns n).run.bare := by
  have hfixed := (Registry.fixed_initAll _ (s.afterRuns n).window.start).trans (s.fixed_afterRuns n)
  rw [← Registry.cell_of_fixed hfixed, ← s.events_afterRuns n] at h
  have hstocked := (stocked_afterRuns hr n).initAll (s.afterRuns n).window.start
  obtain ⟨run, hrun, hbare⟩ := (s.afterRuns n).passes_run.shuffle (hf n) hstocked h
  rw [← hbare, hrun.eq_stepFrom]
  rfl

/-- Runs that finish leave the same with the events shuffled. -/
theorem afterRuns_shuffled : ∀ n,
    ({ s with events } : Simulation).afterRuns n = { s.afterRuns n with events }
  | 0 => rfl
  | n + 1 => by
    rw [afterRuns, afterRuns_shuffled n, ← after_bare, bare_run_shuffled hr h hf]
    exact congrArg (fun s : Simulation => { s with events })
      (after_bare (s.afterRuns n) (s.afterRuns n).run)

theorem report_shuffled (n : Nat) :
    let s' : Simulation := { s with events }
    (s'.afterRuns n).report (s'.afterRuns n).run = (s.afterRuns n).report (s.afterRuns n).run := by
  intro s'
  rw [afterRuns_shuffled hr h hf, ← report_bare, bare_run_shuffled hr h hf]
  exact report_bare (s.afterRuns n) (s.afterRuns n).run

end Shuffled

end Runs

end Simulation

section Permutations

variable {α : Type} (as : List α) (σ : Equiv.Perm (Fin as.length))

theorem perm_ofFn : (List.ofFn fun i => as[σ i]).Perm as := by
  have hp := Equiv.Perm.ofFn_comp_perm σ as.get
  rwa [List.ofFn_get] at hp

/-- A permutation that keeps the order of the elements with a property lists these as before. -/
theorem filter_ofFn {p : α → Bool}
    (h : ∀ i j, i < j → p as[σ i] → p as[σ j] → σ i < σ j) :
    (List.ofFn fun i => as[σ i]).filter p = as.filter p := by
  let q : Fin as.length → Bool := fun i => p as[i]
  have hsorted : ((List.finRange as.length).filter (q ∘ σ)).Pairwise (σ · < σ ·) := by
    refine List.Pairwise.imp_of_mem (fun {i j} hi hj hlt => ?_)
      ((List.pairwise_lt_finRange _).filter _)
    exact h i j hlt (List.mem_filter.1 hi).2 (List.mem_filter.1 hj).2
  have hpositions : ((List.finRange as.length).filter (q ∘ σ)).map σ
      = (List.finRange as.length).filter q := by
    refine List.Perm.eq_of_pairwise (fun i j _ _ h h' => absurd h h'.asymm)
      (List.pairwise_map.2 hsorted) ((List.pairwise_lt_finRange _).filter _) ?_
    rw [← List.filter_map]
    exact (Equiv.Perm.map_finRange_perm σ).filter q
  calc (List.ofFn fun i => as[σ i]).filter p
      = (((List.finRange as.length).filter (q ∘ σ)).map σ).map as.get := by
        rw [List.ofFn_eq_map, List.filter_map, List.map_map]
        rfl
    _ = ((List.finRange as.length).map as.get).filter p := by
        rw [hpositions, List.filter_map]
        rfl
    _ = as.filter p := by rw [List.map_get_finRange]

end Permutations

namespace Scenario

variable {sc : Scenario} {s : Simulation} {events : List Event}

theorem cell_build (hb : sc.build.result = .ok s) : s.registry.cell = sc.cell := by
  have hhosts := (assemble_ok (build_ok hb).2.1).1
  funext e
  have hfind : (s.registry.host? e.host).map (·.fixed)
      = (sc.hosts.find? (·.name == e.host)).map (·.host.fixed) := by
    rw [← Registry.host?_fixed, Registry.host?, Registry.fixed, hhosts, List.find?_map]
    congr 2
    funext spec
    exact congrArg (· == e.host) spec.name_host
  have hproperty : (s.registry.host? e.host).bind (·.property? e.property)
      = (sc.hosts.find? (·.name == e.host)).bind (·.host.property? e.property) := by
    have h := congrArg (Option.bind · (·.property? e.property)) hfind
    simp only [Option.bind_map] at h
    exact h
  rw [Registry.cell, cell, hproperty]

/-- The check of events does not depend on their order. -/
theorem build_of_perm (hb : sc.build.result = .ok s) (hp : events.Perm sc.events) :
    (build { sc with events }).result = .ok { s with events := sortEvents events } := by
  obtain ⟨hflaw, hr, hw, -, htrace, hcheck⟩ := build_ok hb
  have hsame := (sortEvents_perm events).trans (hp.trans (sortEvents_perm sc.events).symm)
  have hcheck' := Registry.forM_checkEvent_iff.2 fun e he =>
    Registry.forM_checkEvent_iff.1 hcheck e (hsame.mem_iff.1 he)
  have hbuilt : (build { sc with events }).result
      = .ok ⟨sc.window, s.registry, sortEvents events, []⟩ := result_build hflaw hr hcheck'
  rw [hbuilt, ← hw, ← htrace]

/-- A run finishes just when its window has an end and no event of it overshoots an array. -/
theorem Yields.finished_iff (h : sc.Yields s) : s.run.ending = .finished ↔
    sc.window.stop < .never ∧
      ∀ e ∈ sc.events, e.time ≤ sc.window.stop → ¬ sc.Overshoots e := by
  obtain ⟨hflaw, hw, he, -⟩ := h.fixed
  obtain ⟨hwindow, hmax, -⟩ := flaw?_eq_none hflaw
  have hp := s.passes_run
  rw [hw, he] at hp
  have hsorted := pairwise_sortEvents sc.events
  constructor
  · intro hf
    refine ⟨hp.stop_lt_never hf, fun e hmem htime => h.not_overshoots_of_applied hmem ?_⟩
    rw [hp.applied hf hsorted hwindow, List.mem_filter, (sortEvents_perm sc.events).mem_iff]
    exact ⟨hmem, decide_eq_true htime⟩
  · rintro ⟨hstop, hnone⟩
    cases hend : s.run.ending with
    | finished => rfl
    | failed applied fault =>
      obtain ⟨before, e, hfails⟩ := h.failsAt hend
      obtain ⟨after, hsplit⟩ := hfails.split
      have hmem : e ∈ sc.events := (sortEvents_perm sc.events).mem_iff.1 (by simp [hsplit])
      exact absurd hfails.overshoots (hnone e hmem hfails.within)
    | endless =>
      have hlast := (hp.of_endless hend hsorted hmax hwindow).1
      exact absurd hlast (Instant.ne_never_of_lt hstop)

/-- The events in another order, which is the same for those that collide. -/
structure Shuffles (sc : Scenario) (events : List Event) : Prop where
  perm : events.Perm sc.events
  stable : ∀ t c, events.filter (fun e => e.time = t ∧ sc.cell e = c)
    = sc.events.filter fun e => e.time = t ∧ sc.cell e = c

theorem Shuffles.symm (h : sc.Shuffles events) : Shuffles { sc with events } sc.events :=
  ⟨h.perm.symm, fun t c => (h.stable t c).symm⟩

theorem shuffles_permute (σ : Equiv.Perm (Fin sc.events.length))
    (h : ∀ i j, i < j → sc.Collide sc.events[σ i] sc.events[σ j] → σ i < σ j) :
    sc.Shuffles (sc.permute σ).events := by
  refine ⟨perm_ofFn sc.events σ, fun t c => filter_ofFn sc.events σ fun i j hlt hi hj => ?_⟩
  simp only [decide_eq_true_eq] at hi hj
  exact h i j hlt ⟨hi.1.trans hj.1.symm, hi.2.trans hj.2.symm⟩

/-- When a run of a scenario finishes, all its runs do, and those with the events shuffled do and
report the same. -/
theorem Shuffles.runs (h : sc.Shuffles events) (hs : sc.Succeeds) :
    ∃ s s', sc.build.result = .ok s ∧ (build { sc with events }).result = .ok s' ∧
      ∀ n, (s.afterRuns n).run.ending = .finished ∧ (s'.afterRuns n).run.ending = .finished ∧
        (s'.afterRuns n).report (s'.afterRuns n).run
          = (s.afterRuns n).report (s.afterRuns n).run := by
  obtain ⟨s, n, hb, hf⟩ := hs
  have hb' := build_of_perm hb h.perm
  obtain ⟨hstop, hnone⟩ := (Yields.finished_iff (.afterRuns (.built hb) n)).1 hf
  have hall : ∀ n, (s.afterRuns n).run.ending = .finished := fun n =>
    (Yields.finished_iff (.afterRuns (.built hb) n)).2 ⟨hstop, hnone⟩
  have hall' := fun n => (Yields.finished_iff (.afterRuns (.built hb') n)).2
    ⟨hstop, fun e he => hnone e (h.perm.mem_iff.1 he)⟩
  have hshuffled : Shuffled s.registry.cell s.events (sortEvents events) := by
    rw [cell_build hb, (build_ok hb).2.2.2.1]
    exact shuffled_sortEvents h.stable
  exact ⟨s, _, hb, hb', fun n =>
    ⟨hall n, hall' n, Simulation.report_shuffled (stocked_build hb) hshuffled hall n⟩⟩

/-- The order of events matters only where they collide. When a permutation keeps the order of any
two events that write the same cell at the same time, and the simulation can be built and a run
finishes with the events in one of the two orders, it can be built with both, and every run finishes
and reports the same. -/
theorem runs_permute (sc : Scenario) (σ : Equiv.Perm (Fin sc.events.length))
    (h : ∀ i j, i < j → sc.Collide sc.events[σ i] sc.events[σ j] → σ i < σ j)
    (hs : sc.Succeeds ∨ (sc.permute σ).Succeeds) :
    ∃ s s', sc.build.result = .ok s ∧ (sc.permute σ).build.result = .ok s' ∧
      ∀ n, (s.afterRuns n).run.ending = .finished ∧ (s'.afterRuns n).run.ending = .finished ∧
        (s'.afterRuns n).report (s'.afterRuns n).run
          = (s.afterRuns n).report (s.afterRuns n).run := by
  have hshuffles := shuffles_permute σ h
  rcases hs with hs | hs
  · exact hshuffles.runs hs
  · obtain ⟨s', s, hb', hb, hruns⟩ := hshuffles.symm.runs hs
    refine ⟨s, s', hb, hb', fun n => ?_⟩
    obtain ⟨hf', hf, hreport⟩ := hruns n
    exact ⟨hf, hf', hreport.symm⟩

end Scenario

/-- A fan that goes on above a limit, and three events of one time: two for the temperature, and
one for the limit. -/
def gusty : Scenario where
  window := ⟨.clamp 0, .clamp 10, 4⟩
  hosts := [{
    name := "room"
    properties := [("fan", .enumeration [⟨"OFF", 0⟩, ⟨"ON", 1⟩] 0),
      ("limits", .numbers [18.0, 25.0]), ("temp", .number 20.0)]
    machines := ["state:fan;rule:OFF->ON=temp>limits#ON"] }]
  events := [{ time := .clamp 3, host := "room", property := "temp", value := 22.0 },
    { time := .clamp 3, host := "room", property := "temp", value := 28.0 },
    { time := .clamp 3, host := "room", property := "limits", index := 1, value := 27.0 }]

/-- The event for the limit can come first, as the other two stay in their order. -/
theorem runs_permute_gusty : ∃ s s', gusty.build.result = .ok s ∧
    (gusty.permute (finRotate 3).symm).build.result = .ok s' ∧
    s'.events.map (·.property) = ["limits", "temp", "temp"] ∧
    (s.report s.run).transitions = [⟨.clamp 3, "room", "fan", "ON"⟩] ∧
    ∀ n, (s'.afterRuns n).report (s'.afterRuns n).run
      = (s.afterRuns n).report (s.afterRuns n).run := by
  have hsort : sortEvents gusty.events = gusty.events := sortEvents_eq_self (by decide +kernel)
  have h : Scenario.buildsTo { gusty with events := [] } (fun s =>
      let s' : Simulation := { s with events := gusty.events }
      s'.run.ending.isFinished && decide (gusty.events.forM s.registry.checkEvent = .ok () ∧
        (s'.report s'.run).transitions = [⟨.clamp 3, "room", "fan", "ON"⟩])) = true := by
    decide +kernel
  obtain ⟨s, hs, htest⟩ := Scenario.of_buildsTo h
  rw [Bool.and_eq_true, Ending.isFinished_iff, decide_eq_true_iff] at htest
  obtain ⟨hf, hcheck, htransitions⟩ := htest
  obtain ⟨hflaw, hr, hw, -, htrace, -⟩ := Scenario.build_ok hs
  have hb : gusty.build.result = .ok { s with events := gusty.events } := by
    have hbuilt : gusty.build.result
        = .ok ⟨gusty.window, s.registry, sortEvents gusty.events, []⟩ :=
      Scenario.result_build hflaw hr (hsort.symm ▸ hcheck)
    have hw : s.window = gusty.window := hw
    rw [hbuilt, hsort, ← hw, ← htrace]
  obtain ⟨t, s', ht, hs', hruns⟩ := Scenario.runs_permute gusty (finRotate 3).symm
    (by decide +kernel) (.inl ⟨_, 0, hb, hf⟩)
  obtain rfl := Except.ok.inj (ht.symm.trans hb)
  refine ⟨_, s', hb, hs', ?_, htransitions, fun n => (hruns n).2.2⟩
  rw [(Scenario.build_ok hs').2.2.2.1, sortEvents_eq_self (by decide +kernel)]
  decide +kernel

end Dwell

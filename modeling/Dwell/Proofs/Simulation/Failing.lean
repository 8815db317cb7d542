import Dwell.Proofs.Simulation.Ending
import Dwell.Proofs.Simulation.Ordering
import Dwell.Proofs.Simulation.Readable

/-!
# When a run fails

Building a simulation checks of every event that it names a property which can be set, but not that
the property has the element. So an event fails just when it overshoots an array
(`Prepared.applyEvent_cases`). A run stops at the first such event of its window: what comes before
it has been applied (`Passes.of_failed`), and the machines ticked as if it were the end of the
events (`Passes.steps_of_failed`).
-/

namespace Dwell

/-- Of the properties that can be set, only arrays have elements to miss. -/
theorem Host.write?_eq_none_iff {h : Host} {name : String} {index : Nat} {value : Float}
    {p : Property} (hs : h.sources = []) (hp : h.property? name = some p)
    (hset : ∀ type, p ≠ .other type) :
    h.write? name index value = none ↔ ∃ n, h.property? name = some (.array n) ∧ n ≤ index := by
  rw [write?, hp]
  cases p with
  | enumeration e => simp [setLevel?, property?_eq_enumeration hp]
  | array n => simp [setNumber?, element?, property?_eq_array hp]
  | source s => exact absurd hp (property?_ne_source hs s)
  | other type => exact absurd rfl (hset type)

namespace Registry

/-- The event names an array and an element behind the last one that it has. -/
def Overshoots (r : Registry) (e : Event) : Prop :=
  ∃ host n, r.host? e.host = some host ∧ host.property? e.property = some (.array n) ∧ n ≤ e.index

/-- No host has sources, and the events have passed the check. -/
structure Prepared (r : Registry) (events : List Event) : Prop where
  sources : ∀ host ∈ r.hosts, host.sources = []
  checked : ∀ e ∈ events, r.checkEvent e = .ok ()

variable {r r' : Registry} {e : Event} {es : List Event} {fault : SimulationFault}

section Check

theorem checkEvent_eq_ok_iff : r.checkEvent e = .ok () ↔
    ∃ host p, r.host? e.host = some host ∧ host.property? e.property = some p ∧
      ∀ type, p ≠ .other type := by
  unfold checkEvent
  rcases r.host? e.host with _ | host
  · simp
  rcases hp : host.property? e.property with _ | p
  · simp [hp]
  · cases p <;> simp [hp]

theorem host?_eq_some_iff {name : String} {host : Host} (hn : (r.hosts.map (·.name)).Nodup) :
    r.host? name = some host ↔ host ∈ r.hosts ∧ host.name = name := by
  constructor
  · intro h
    exact ⟨List.mem_of_find?_eq_some h, by simpa using List.find?_some h⟩
  · rintro ⟨hmem, rfl⟩
    obtain ⟨host', hfound⟩ := Option.isSome_iff_exists.1
      (List.find?_isSome.2 ⟨host, hmem, by simp⟩ : (r.host? host.name).isSome)
    have hname : host'.name = host.name := by simpa using List.find?_some hfound
    rwa [List.inj_on_of_nodup_map hn (List.mem_of_find?_eq_some hfound) hmem hname] at hfound

theorem host?_fixed (name : String) : r.fixed.host? name = (r.host? name).map (·.fixed) := by
  rw [host?, fixed, List.find?_map]
  rfl

theorem forM_checkEvent_iff : ∀ {es : List Event}, es.forM r.checkEvent = .ok () ↔
    ∀ e ∈ es, r.checkEvent e = .ok ()
  | [] => ⟨fun _ _ he => by simp at he, fun _ => rfl⟩
  | e :: es => by
    rw [List.forall_mem_cons, ← forM_checkEvent_iff]
    constructor
    · intro h
      obtain ⟨_, he, hes⟩ := bind_eq_ok (x := r.checkEvent e) h
      exact ⟨he, hes⟩
    · rintro ⟨he, hes⟩
      change (r.checkEvent e).bind _ = _
      rw [he]
      exact hes

/-- The position at which a host is found by its name is that of the host itself. -/
theorem hostAt?_of_host? {name : String} {host : Host} (h : r.host? name = some host) :
    ∃ k, r.hostAt? name = some k ∧ r.hosts[k]? = some host := by
  obtain ⟨hname, k, hlt, rfl, hfirst⟩ := List.find?_eq_some_iff_getElem.1 h
  refine ⟨k, List.findIdx?_eq_some_iff_getElem.2 ⟨hlt, hname, fun j hj => ?_⟩,
    List.getElem?_eq_getElem hlt⟩
  simpa using hfirst j hj

theorem overshoots_fixed : r.fixed.Overshoots e ↔ r.Overshoots e := by
  simp only [Overshoots, host?_fixed]
  rcases r.host? e.host with _ | host
  · simp
  · simp [Host.property?_fixed]

theorem prepared_fixed : r.fixed.Prepared es ↔ r.Prepared es := by
  have hcheck (e : Event) : r.fixed.checkEvent e = .ok () ↔ r.checkEvent e = .ok () := by
    rw [checkEvent_eq_ok_iff, checkEvent_eq_ok_iff, host?_fixed]
    rcases r.host? e.host with _ | host
    · simp
    · simp [Host.property?_fixed]
  constructor
  · exact fun h => ⟨fun host hhost => h.sources host.fixed (List.mem_map_of_mem hhost),
      fun e he => (hcheck e).1 (h.checked e he)⟩
  · exact fun h => ⟨List.forall_mem_map.2 h.sources, fun e he => (hcheck e).2 (h.checked e he)⟩

theorem overshoots_of_fixed (hf : r'.fixed = r.fixed) : r'.Overshoots e ↔ r.Overshoots e :=
  (eq_of_fixed (f := (·.Overshoots e)) (fun _ => propext overshoots_fixed) hf).to_iff

theorem Prepared.of_fixed (hf : r'.fixed = r.fixed) (h : r.Prepared es) : r'.Prepared es :=
  (eq_of_fixed (f := (·.Prepared es)) (fun _ => propext prepared_fixed) hf).mpr h

/-- An event that has passed the check fails just when it overshoots an array. -/
theorem Prepared.applyEvent_cases (h : r.Prepared es) (he : e ∈ es) :
    (r.Overshoots e ∧
      r.applyEvent e = .error (.event e.time e.host e.property (.noElement e.index))) ∨
    (¬ r.Overshoots e ∧ r.Accepts e) := by
  obtain ⟨host, p, hhost, hp, hset⟩ := checkEvent_eq_ok_iff.1 (h.checked e he)
  obtain ⟨k, hk, hat⟩ := hostAt?_of_host? hhost
  have hwrite : host.write? e.property e.index e.value = none ↔ _ :=
    Host.write?_eq_none_iff (h.sources host (List.mem_of_getElem? hat)) hp hset
  have hover : r.Overshoots e ↔ host.write? e.property e.index e.value = none := by
    simp [hwrite, Overshoots, hhost]
  rcases hw : host.write? e.property e.index e.value with _ | host'
  · exact .inl ⟨hover.2 hw, by simp [applyEvent, hk, hat, hw]⟩
  · refine .inr ⟨fun ho => ?_, accepts_iff.2 ⟨k, host, hk, hat, Option.isSome_of_eq_some hw⟩⟩
    rw [hover, hw] at ho
    cases ho

end Check

/-- The events up to the one that fails are applied. -/
theorem applyEvents_failed : ∀ {es applied : List Event} {r r' : Registry},
    r.applyEvents es = (r', applied, some fault) → ∃ e after, es = applied ++ e :: after ∧
      r.applyEvents applied = (r', applied, none) ∧ r'.applyEvent e = .error fault
  | [], _, r, _, h => by simp [applyEvents] at h
  | e :: es, _, r, _, h => by
    simp only [applyEvents] at h
    split at h
    · rename_i fault' he
      cases h
      exact ⟨e, es, rfl, rfl, he⟩
    · rename_i r₁ he
      rcases hes : r₁.applyEvents es with ⟨r₂, applied', fault?⟩
      rw [hes] at h
      cases h
      obtain ⟨e', after, hsplit, happly, herror⟩ := applyEvents_failed hes
      exact ⟨e', after, by rw [hsplit, List.cons_append], by simp [applyEvents, he, happly], herror⟩

end Registry

namespace Simulation

variable {w : Window} {r : Registry} {pending before after applied : List Event} {e : Event}
  {now wake : Instant} {run : Run} {fault : SimulationFault}

section Split

/-- Where those that are due end and those still to come begin, events are split by the time. -/
theorem due_later_append {es : List Event} (hes : ∀ e ∈ es, e.time ≤ now)
    (hbefore : ∀ e ∈ before, now < e.time) :
    due now (es ++ before) = es ∧ later now (es ++ before) = before := by
  rw [due, later, List.takeWhile_append_of_pos (by simpa using hes),
    List.dropWhile_append_of_pos (by simpa using hes)]
  cases before with
  | nil => simp
  | cons b before => simp [not_le.2 (hbefore b (by simp))]

/-- An event that is still to come bounds the next time, and those behind it do not. -/
theorem next_append (hs : (before ++ e :: after).Pairwise (·.time ≤ ·.time)) :
    next w (before ++ e :: after) now wake = min (next w before now wake) e.time := by
  have hcapped (t : Instant) :
      capped (before ++ e :: after) t = min (capped before t) e.time := by
    cases before with
    | nil => rfl
    | cons b before =>
      have hle : b.time ≤ e.time := (List.pairwise_cons.1 hs).1 e (by simp)
      rw [List.cons_append, capped, capped, min_assoc, min_eq_left hle]
  simp only [next, hcapped]
  split
  · rw [min_right_comm]
  · rfl

end Split

namespace Passes

/-- A run that comes to a time has no steps before it. -/
theorem takeWhile_eq_nil (h : Passes w r pending now run) {t : Instant} (ht : t ≤ now) :
    run.steps.takeWhile (·.now < t) = [] := by
  rcases hsteps : run.steps with _ | ⟨st, steps⟩
  · rfl
  · have hnow : st.now = now := h.head_now st (by simp [hsteps])
    simp [hnow, not_lt.2 ht]

/-- A run fails at an event of its window that cannot be applied, with all events before it applied
and the machines ticked in between. -/
theorem of_failed (h : Passes w r pending now run) (hend : run.ending = .failed applied fault)
    (hnow : now ≤ w.stop) :
    ∃ e after q, pending = run.steps.flatMap (·.applied) ++ applied ++ e :: after ∧
      e.time ≤ w.stop ∧ r.Replays run.steps q ∧
      q.applyEvents applied = (run.registry, applied, none) ∧
      run.registry.applyEvent e = .error fault := by
  induction h with
  | @failed r pending now r' applied' fault' ha =>
    cases hend
    obtain ⟨e, after, hdue, happly, herror⟩ := Registry.applyEvents_failed ha
    have hmem : e ∈ due now pending := by simp [hdue]
    have he : e.time ≤ now := time_of_mem_due e hmem
    refine ⟨e, after ++ later now pending, r, ?_, he.trans hnow, .none, happly, herror⟩
    conv_lhs => rw [← due_append_later now pending, hdue]
    simp
  | finished _ _ _ | stuck _ _ _ _ => cases hend
  | @passed r pending r' now run st ha ht _ hstop _ _ ih =>
    obtain ⟨e, after, q, hlater, he, hreplays, happly, herror⟩ := ih hend hstop
    refine ⟨e, after, q, ?_, he, .step ht hreplays, happly, herror⟩
    conv_lhs => rw [← due_append_later st.now pending, hlater, ← ha]
    simp

/-- A step ahead of an event is taken without the event as with it, and the next one too unless it
comes to the event. -/
theorem takeWhile_of_takes {r' : Registry} {st : Step} (ht : r.Takes st r')
    (happlied : ∀ e' ∈ st.applied, e'.time ≤ st.now)
    (hahead : ∀ e' ∈ before ++ e :: after, st.now < e'.time)
    (hs : (before ++ e :: after).Pairwise (·.time ≤ ·.time))
    (hstop : next w (before ++ e :: after) st.now st.wake ≤ w.stop)
    (hlt : st.now < next w (before ++ e :: after) st.now st.wake) :
    (stepFrom w r (st.applied ++ before) st.now).steps.takeWhile (·.now < e.time) =
      st :: (stepFrom w r' before (next w (before ++ e :: after) st.now st.wake)).steps.takeWhile
        (·.now < e.time) := by
  have he : st.now < e.time := hahead e (by simp)
  obtain ⟨hdue, hrest⟩ := due_later_append happlied fun e' he' =>
    hahead e' (List.mem_append_left _ he')
  rw [next_append hs] at hstop hlt ⊢
  rw [stepFrom_of_takes w hdue.symm ht, hrest]
  dsimp only
  generalize next w before st.now st.wake = time at hstop hlt ⊢
  rcases lt_or_ge time e.time with htime | htime
  · rw [min_eq_left htime.le] at hstop hlt ⊢
    rw [if_neg (not_lt.2 hstop), if_neg (not_le.2 hlt)]
    simp [he]
  · -- With the event the next step is at its time, and without it there is none before.
    rw [min_eq_right htime, (passes_stepFrom ..).takeWhile_eq_nil le_rfl]
    split
    · simp [he]
    split
    · simp [he]
    · simp [he, (passes_stepFrom ..).takeWhile_eq_nil htime]

/-- Up to the event at which a run fails, it is the run of the events before that one. -/
theorem steps_of_failed (h : Passes w r pending now run)
    (hend : run.ending = .failed applied fault) (hs : pending.Pairwise (·.time ≤ ·.time))
    (hsplit : pending = run.steps.flatMap (·.applied) ++ applied ++ e :: after) :
    run.steps = (stepFrom w r (run.steps.flatMap (·.applied) ++ applied) now).steps.takeWhile
      (·.now < e.time) := by
  induction h with
  | @failed r pending now r' applied' fault' ha =>
    cases hend
    obtain ⟨e', after', hdue, -, -⟩ := Registry.applyEvents_failed ha
    -- What fails is the first event that is due and not applied.
    have he : e.time ≤ now := by
      rw [← due_append_later now pending, hdue, List.append_assoc] at hsplit
      have htail := List.append_cancel_left hsplit
      simp only [List.cons_append, List.cons.injEq] at htail
      have hmem : e' ∈ due now pending := by simp [hdue]
      exact htail.1 ▸ time_of_mem_due e' hmem
    exact ((passes_stepFrom ..).takeWhile_eq_nil he).symm
  | finished _ _ _ | stuck _ _ _ _ => cases hend
  | @passed r pending r' now run st ha ht hn hstop hlt hp ih =>
    dsimp only at hend hsplit ⊢
    rw [← due_append_later st.now pending, ← ha, List.flatMap_cons, List.append_assoc,
      List.append_assoc, List.append_cancel_left_eq, ← List.append_assoc] at hsplit
    rename' hsplit => hlater
    have happlied : ∀ e' ∈ st.applied, e'.time ≤ st.now := fun e' he' =>
      time_of_mem_due e' (ha ▸ he')
    have hahead : ∀ e' ∈ later st.now pending, st.now < e'.time := lt_time_of_mem_later hs
    have hsorted : (later st.now pending).Pairwise (·.time ≤ ·.time) := pairwise_later hs
    replace ih := ih hend hsorted hlater
    rw [hlater] at hahead hsorted hn
    subst hn
    rw [List.flatMap_cons, List.append_assoc,
      takeWhile_of_takes ht happlied hahead hsorted hstop hlt, ← ih]

end Passes

end Simulation

/-- Before an event in the order of time stand the earlier ones, and those of its own time that the
scenario has before it. -/
theorem sortEvents_split {events before after : List Event} {e : Event}
    (h : sortEvents events = before ++ e :: after) :
    ∃ earlier later, events = earlier ++ e :: later ∧
      (∀ e' ∈ earlier, e'.time ≤ e.time → e' ∈ before) ∧
      ∀ e' ∈ later, e'.time < e.time → e' ∈ before := by
  have hbehind : ∀ e' ∈ events, e'.time < e.time → e' ∈ before := by
    intro e' he' hlt
    have hsorted := pairwise_sortEvents events
    rw [h, List.pairwise_append, List.pairwise_cons] at hsorted
    obtain ⟨-, ⟨hafter, -⟩, -⟩ := hsorted
    rw [← (sortEvents_perm events).mem_iff, h, List.mem_append, List.mem_cons] at he'
    rcases he' with he' | rfl | he'
    · exact he'
    · exact absurd hlt (lt_irrefl _)
    · exact absurd hlt (not_lt.2 (hafter e' he'))
  have hsame := filter_sortEvents events e.time
  rw [h, List.filter_append, List.filter_cons_of_pos (by simp)] at hsame
  obtain ⟨l, m, rfl, hl, hm⟩ := List.filter_eq_append_iff.1 hsame.symm
  obtain ⟨m₁, m₂, rfl, hm₁, -, -⟩ := List.filter_eq_cons_iff.1 hm
  refine ⟨l ++ m₁, m₂, by simp, fun e' he' hle => ?_, fun e' he' => hbehind e' (by simp [he'])⟩
  rcases hle.lt_or_eq with hlt | heq
  · refine hbehind e' ?_ hlt
    rcases List.mem_append.1 he' with he' | he' <;> simp [he']
  · rcases List.mem_append.1 he' with he' | he'
    · have hin : e' ∈ before.filter (·.time = e.time) :=
        hl ▸ List.mem_filter.2 ⟨he', by simpa using heq⟩
      exact (List.mem_filter.1 hin).1
    · exact absurd (by simpa using heq) (hm₁ e' he')

namespace Scenario

/-- The event names a number property of the scenario and an element that it does not have. -/
def Overshoots (sc : Scenario) (e : Event) : Prop :=
  ∃ spec ∈ sc.hosts, spec.name = e.host ∧
    ∃ n, spec.host.property? e.property = some (.array n) ∧ n ≤ e.index

/-- A run of a scenario's simulation fails at an event, the first of all in the order of time that
overshoots an array. The events before it are applied, and the machines are ticked as they are when
there are no other events. -/
structure FailsAt (sc : Scenario) (s : Simulation) (run : Run) (before : List Event) (e : Event) :
    Prop where
  split : ∃ after, sortEvents sc.events = before ++ e :: after
  within : e.time ≤ sc.window.stop
  overshoots : sc.Overshoots e
  early : ∀ e' ∈ before, ¬ sc.Overshoots e'
  /-- Of events of the same time, the first one of the scenario. -/
  first : ∃ earlier later, sc.events = earlier ++ e :: later ∧
    (∀ e' ∈ earlier, sc.Overshoots e' → e.time < e'.time) ∧
    ∀ e' ∈ later, sc.Overshoots e' → e.time ≤ e'.time
  /-- The steps are taken one after the other, and then the events applied that are due with `e`. -/
  ending : ∃ applied q, run.ending =
      .failed applied (.event e.time e.host e.property (.noElement e.index)) ∧
    run.steps.flatMap (·.applied) ++ applied = before ∧ s.opening.Replays run.steps q ∧
    q.applyEvents applied = (run.registry, applied, none)
  ticks : run.steps =
    ({ s with events := before } : Simulation).run.steps.takeWhile (·.now < e.time)

variable {sc : Scenario} {s : Simulation}

theorem prepared_build (h : sc.build.result = .ok s) :
    s.registry.Prepared sc.events ∧ ∀ e, s.registry.Overshoots e ↔ sc.Overshoots e := by
  obtain ⟨-, hr, -, -, -, hcheck⟩ := build_ok h
  have hhosts := (assemble_ok hr).1
  have hspec : ∀ host ∈ s.registry.hosts, ∃ spec ∈ sc.hosts, spec.host.fixed = host.fixed :=
    fun host hhost => List.mem_map.1 (hhosts ▸ List.mem_map_of_mem hhost)
  refine ⟨⟨fun host hhost => ?_, fun e he => ?_⟩, fun e => ?_⟩
  · obtain ⟨spec, -, hf⟩ := hspec host hhost
    exact (congrArg (·.sources) hf).symm.trans (sources_host spec)
  · exact Registry.forM_checkEvent_iff.1 hcheck e ((sortEvents_perm sc.events).mem_iff.2 he)
  have hname {spec : HostSpec} {host : Host} (hf : spec.host.fixed = host.fixed) :
      host.name = spec.name := (congrArg (·.name) hf).symm.trans spec.name_host
  have hproperty {spec : HostSpec} {host : Host} (hf : spec.host.fixed = host.fixed) :
      spec.host.property? e.property = host.property? e.property := Host.property?_of_fixed hf
  simp only [Registry.Overshoots, Registry.host?_eq_some_iff (crewed_build h).names]
  constructor
  · rintro ⟨host, n, ⟨hhost, hn⟩, hp, hle⟩
    obtain ⟨spec, hmem, hf⟩ := hspec host hhost
    exact ⟨spec, hmem, (hname hf).symm.trans hn, n, (hproperty hf).trans hp, hle⟩
  · rintro ⟨spec, hmem, hn, n, hp, hle⟩
    obtain ⟨host, hhost, hf⟩ : ∃ host ∈ s.registry.hosts, host.fixed = spec.host.fixed :=
      List.mem_map.1 (hhosts ▸ List.mem_map_of_mem hmem)
    exact ⟨host, n, ⟨hhost, (hname hf.symm).trans hn⟩, (hproperty hf.symm).symm.trans hp, hle⟩

namespace Yields

/-- Wherever a run has come to, an event fails just when it overshoots an array. -/
theorem applyEvent_cases (h : sc.Yields s) {q : Registry} (hq : q.fixed = s.opening.fixed)
    {e : Event} (he : e ∈ sc.events) :
    (sc.Overshoots e ∧
      q.applyEvent e = .error (.event e.time e.host e.property (.noElement e.index))) ∨
    (¬ sc.Overshoots e ∧ q.Accepts e) := by
  obtain ⟨-, -, -, s₀, hs₀, hf⟩ := h.fixed
  obtain ⟨hprepared, hover⟩ := prepared_build hs₀
  have hfixed : q.fixed = s₀.registry.fixed :=
    hq.trans ((Registry.fixed_initAll ..).trans hf)
  rw [← hover e, ← Registry.overshoots_of_fixed hfixed]
  exact (hprepared.of_fixed hfixed).applyEvent_cases he

/-- What a step of a run applies overshoots nothing. -/
theorem not_overshoots_of_applied (h : sc.Yields s) {e : Event} (he : e ∈ sc.events)
    (happlied : e ∈ s.run.steps.flatMap (·.applied)) : ¬ sc.Overshoots e := by
  obtain ⟨st, hst, hmem⟩ := List.mem_flatMap.1 happlied
  obtain ⟨q, q', ht, hq⟩ := s.passes_run.takes st hst
  rcases h.applyEvent_cases hq he with ⟨-, herror⟩ | ⟨hnot, -⟩
  · obtain ⟨r, hok⟩ := ht.accepts e hmem
    rw [herror] at hok
    cases hok
  · exact hnot

theorem failsAt (h : sc.Yields s) {applied : List Event} {fault : SimulationFault}
    (hend : s.run.ending = .failed applied fault) : ∃ before e, sc.FailsAt s s.run before e := by
  obtain ⟨hflaw, hw, he, -⟩ := h.fixed
  have hp := s.passes_run
  have hnow : s.window.start ≤ s.window.stop := hw ▸ (flaw?_eq_none hflaw).1
  obtain ⟨e, after, q, hsplit, htime, hreplays, happly, herror⟩ := hp.of_failed hend hnow
  have hsorted : s.events.Pairwise (·.time ≤ ·.time) := he ▸ pairwise_sortEvents sc.events
  have hticks := hp.steps_of_failed hend hsorted hsplit
  have hmem : ∀ e' ∈ s.events, e' ∈ sc.events := fun e' he' =>
    (sortEvents_perm sc.events).mem_iff.1 (he ▸ he')
  rw [hsplit] at hmem
  obtain ⟨hover, hfault⟩ : sc.Overshoots e ∧
      .event e.time e.host e.property (.noElement e.index) = fault := by
    rcases h.applyEvent_cases hp.fixed (hmem e (by simp)) with ⟨hover, herror'⟩ | ⟨-, r, hok⟩
    · exact ⟨hover, Except.error.inj (herror'.symm.trans herror)⟩
    · rw [herror] at hok
      cases hok
  have hearly : ∀ e' ∈ s.run.steps.flatMap (·.applied) ++ applied, ¬ sc.Overshoots e' := by
    intro e' he'
    have hin : e' ∈ sc.events := hmem e' (List.mem_append_left _ he')
    rcases List.mem_append.1 he' with he' | he'
    · exact h.not_overshoots_of_applied hin he'
    · -- The events that were due with `e` and applied before it.
      rcases h.applyEvent_cases hreplays.fixed hin with ⟨-, herror'⟩ | ⟨hnot, -⟩
      · obtain ⟨r, hok⟩ := Registry.applyEvents_eq_none_iff.1 (by rw [happly]) e' he'
        rw [herror'] at hok
        cases hok
      · exact hnot
  obtain ⟨earlier, later, hevents, hearlier, hlater⟩ := sortEvents_split (he ▸ hsplit)
  exact ⟨_, e,
    { split := ⟨after, he ▸ hsplit⟩
      within := hw ▸ htime
      overshoots := hover
      early := hearly
      first := ⟨earlier, later, hevents,
        fun e' he' ho => not_le.1 fun hle => hearly e' (hearlier e' he' hle) ho,
        fun e' he' ho => not_lt.1 fun hlt => hearly e' (hlater e' he' hlt) ho⟩
      ending := ⟨applied, q, hfault ▸ hend, rfl, hreplays, happly⟩
      ticks := hticks }⟩

/-- A run of a scenario fails just when some event of its window overshoots an array. It then fails
at the first of these in the order of time, with all that comes before it done. -/
theorem fails_iff (h : sc.Yields s) (hstop : sc.window.stop < .never) :
    ((∃ applied fault, s.run.ending = .failed applied fault) ↔
      ∃ e ∈ sc.events, e.time ≤ sc.window.stop ∧ sc.Overshoots e) ∧
    (∀ applied fault, s.run.ending = .failed applied fault →
      ∃ before e, sc.FailsAt s s.run before e) ∧
    s.run.ending ≠ .endless := by
  obtain ⟨hflaw, hw, he, -⟩ := h.fixed
  obtain ⟨hwindow, hmax, -⟩ := flaw?_eq_none hflaw
  have hp := s.passes_run
  rw [hw, he] at hp
  have hsorted := pairwise_sortEvents sc.events
  have hends : s.run.ending ≠ .endless := fun hend =>
    absurd (hp.of_endless hend hsorted hmax hwindow).1 (Instant.ne_never_of_lt hstop)
  refine ⟨⟨?_, ?_⟩, fun applied fault hend => h.failsAt hend, hends⟩
  · rintro ⟨applied, fault, hend⟩
    obtain ⟨before, e, hfails⟩ := h.failsAt hend
    obtain ⟨after, hsplit⟩ := hfails.split
    exact ⟨e, (sortEvents_perm sc.events).mem_iff.1 (by simp [hsplit]), hfails.within,
      hfails.overshoots⟩
  · rintro ⟨e, hmem, htime, hover⟩
    cases hend : s.run.ending with
    | failed applied fault => exact ⟨applied, fault, rfl⟩
    | endless => exact absurd hend hends
    | finished =>
      have happlied := hp.applied hend hsorted hwindow
      refine absurd hover (h.not_overshoots_of_applied hmem ?_)
      rw [happlied, List.mem_filter]
      exact ⟨(sortEvents_perm sc.events).mem_iff.2 hmem, by simpa using htime⟩

end Yields

end Scenario

/-- A heater that goes on above the second of two limits, and an event that names a third. -/
def limiting : Scenario where
  window := ⟨.clamp 0, .clamp 10, 4⟩
  hosts := [{
    name := "room"
    properties := [("heater", .enumeration [⟨"OFF", 0⟩, ⟨"ON", 1⟩] 0),
      ("limits", .numbers [18.0, 25.0])]
    machines := ["state:heater;rule:OFF->ON=limits#ON>20"] }]
  events := [{ time := .clamp 6, host := "room", property := "limits", index := 2, value := 30.0 }]

/-- The heater is ticked twice before the run fails. -/
theorem fails_limiting : ∃ s, limiting.build.result = .ok s ∧
    s.run.times = [.clamp 0, .clamp 4] ∧ ∃ before e, limiting.FailsAt s s.run before e := by
  have h : limiting.buildsTo (fun s => s.run.times = [.clamp 0, .clamp 4]) = true := by
    decide +kernel
  obtain ⟨s, hs, htimes⟩ := Scenario.of_buildsTo h
  obtain ⟨hiff, hfails, -⟩ := Scenario.Yields.fails_iff (.built hs) (by decide)
  obtain ⟨applied, fault, hend⟩ := hiff.2 ⟨limiting.events[0], by simp [limiting], by decide,
    limiting.hosts[0], by simp [limiting], rfl, 2, rfl, by decide⟩
  exact ⟨s, hs, of_decide_eq_true htimes, hfails applied fault hend⟩

end Dwell

import Dwell.Proofs.Simulation.Opening

/-!
# The trace of a run

When no two machines share a state variable, and events write values of states to those, the
report of a first run is a history of each machine: the entries with its object and property lead
from the state it was started in to the one it is left in (`Report.Tells`). What one step tells of a
machine (`Takes.told`) adds up to what the steps of a run tell of it (`Replays.told`).
-/

namespace Dwell

/-- The object and property that an entry tells of. -/
def StateEntry.subject (a : StateEntry) : String × String :=
  (a.object, a.property)

def Summary.subject? (m : Summary) : Option (String × String) :=
  m.property?.map (m.object, ·)

/-- Entries that lead from one state to another, each into a state that is not the one before, at
later and later times of a window. -/
structure Chronicle (start stop : Instant) (first last : Option String)
    (entries : List StateEntry) : Prop where
  within : ∀ a ∈ entries, start ≤ a.time ∧ a.time ≤ stop
  increasing : entries.Pairwise (·.time < ·.time)
  changing : (first :: entries.map (some ·.state)).IsChain (· ≠ ·)
  last_eq : last = (entries.getLast?.map (·.state)).or first

/-- The machine at a position is one that an entry tells of. -/
def Report.Owns (rep : Report) (i : Nat) (a : StateEntry) : Prop :=
  (rep.machines.map (·.subject?))[i]? = some (some a.subject)

/-- The report tells the history of each machine, given what the machines were at first. -/
structure Report.Tells (rep : Report) (openings : List Summary) : Prop where
  machines : ∀ (i : Nat) (m : Summary), openings[i]? = some m → ∃ m' : Summary,
    rep.machines[i]? = some m' ∧ m'.subject? = m.subject? ∧ ∀ c ∈ m.subject?,
      Chronicle rep.start rep.stop m.state? m'.state? (rep.transitions.filter (·.subject = c))
  owned : ∀ a ∈ rep.transitions, ∃ i, rep.Owns i a
  /-- Entries of the same time are in the order of the machines. -/
  ordered : rep.transitions.Pairwise fun a b =>
    a.time < b.time ∨ a.time = b.time ∧ ∀ i j, rep.Owns i a → rep.Owns j b → i < j

/-- No two machines have the same object and property. -/
def Registry.Exclusive (r : Registry) : Prop :=
  (r.summaries.filterMap (·.subject?)).Nodup

instance : DecidablePred Registry.Exclusive := fun r =>
  inferInstanceAs (Decidable (r.summaries.filterMap (·.subject?)).Nodup)

section Positions

variable {α β : Type} {f : α → Option β} {i j : Nat} {x : α} {b : β}

theorem position_unique {as : List α} (hn : (as.filterMap f).Nodup)
    (hi : (as.map f)[i]? = some (some b)) (hj : (as.map f)[j]? = some (some b)) : i = j := by
  rw [List.Nodup, List.pairwise_filterMap, List.pairwise_iff_getElem] at hn
  obtain ⟨hi, hfi⟩ := List.getElem?_eq_some_iff.1 hi
  obtain ⟨hj, hfj⟩ := List.getElem?_eq_some_iff.1 hj
  rw [List.getElem_map] at hfi hfj
  rw [List.length_map] at hi hj
  rcases lt_trichotomy i j with hlt | heq | hlt
  · exact absurd rfl (hn i j hi hj hlt b hfi b hfj)
  · exact heq
  · exact absurd rfl (hn j i hj hi hlt b hfj b hfi)

/-- When only what comes from one position is kept. -/
theorem filter_filterMap_eq {q : β → Bool} : ∀ {as : List α} {i : Nat}, as[i]? = some x →
    (∀ j y b, as[j]? = some y → f y = some b → (q b = true ↔ j = i)) →
    (as.filterMap f).filter q = (f x).toList
  | [], i, hi, _ => by simp at hi
  | y :: as, 0, hi, h => by
    obtain rfl : y = x := by simpa using hi
    have hrest : (as.filterMap f).filter q = [] := by
      refine List.filter_eq_nil_iff.2 fun b hb hq => ?_
      obtain ⟨z, hz, hfz⟩ := List.mem_filterMap.1 hb
      obtain ⟨j, hj⟩ := List.getElem?_of_mem hz
      have := (h (j + 1) z b hj hfz).1 hq
      omega
    rcases hfy : f y with _ | b
    · rw [List.filterMap_cons_none hfy, hrest]
      rfl
    · rw [List.filterMap_cons_some hfy, List.filter_cons, if_pos ((h 0 y b rfl hfy).2 rfl), hrest]
      rfl
  | y :: as, i + 1, hi, h => by
    have ih : (as.filterMap f).filter q = (f x).toList :=
      filter_filterMap_eq hi fun j z b hj hz => by
        rw [h (j + 1) z b hj hz]
        omega
    rcases hfy : f y with _ | b
    · rw [List.filterMap_cons_none hfy, ih]
    · have hq : ¬ q b = true := fun hq => by
        have := (h 0 y b rfl hfy).1 hq
        omega
      rw [List.filterMap_cons_some hfy, List.filter_cons, if_neg hq, ih]

end Positions

namespace Registry

variable {r r' R : Registry} {st : Step} {s : Station} {x : Station × Station} {now : Instant}

/-- The object and property of a machine. -/
def subject? (r : Registry) (s : Station) : Option (String × String) :=
  s.cell?.map fun c => (r.hostName c.1, c.2)

def subjects (r : Registry) : List (Option (String × String)) :=
  r.stations.map r.subject?

theorem subjects_summaries (r : Registry) : r.summaries.map (·.subject?) = r.subjects := by
  rw [summaries, subjects, List.map_map]
  refine List.map_congr_left fun s _ => ?_
  simp only [Function.comp_apply, Summary.subject?, subject?, Station.cell?, Option.map_map]
  rfl

theorem subject?_of_fixed {s' : Station} (hr : r'.fixed = r.fixed) (hs : s'.fixed = s.fixed) :
    r'.subject? s' = r.subject? s := by
  rw [subject?, subject?, ← s'.cell?_fixed, hs, s.cell?_fixed]
  simp only [hostName_of_fixed hr]

theorem subjects_of_fixed (h : r'.fixed = r.fixed) : r'.subjects = r.subjects := by
  refine eq_of_fixed (fun r => ?_) h
  rw [subjects, fixed, List.map_map]
  refine List.map_congr_left fun s _ => ?_
  simp only [Function.comp_apply, subject?, Station.cell?_fixed]
  exact congrArg (Option.map · _) (funext fun c => by rw [← r.hostName_fixed]; rfl)

theorem exclusive_iff : r.Exclusive ↔ (r.subjects.filterMap id).Nodup := by
  rw [Exclusive, ← subjects_summaries, List.filterMap_map]
  rfl

theorem exclusive_of_fixed (h : r'.fixed = r.fixed) (hr : r.Exclusive) : r'.Exclusive := by
  rwa [exclusive_iff, subjects_of_fixed h, ← exclusive_iff]

theorem Exclusive.cells (h : r.Exclusive) : (r.stations.filterMap (·.cell?)).Nodup := by
  rw [exclusive_iff, subjects, List.filterMap_map] at h
  have hm : r.stations.filterMap (id ∘ r.subject?)
      = (r.stations.filterMap (·.cell?)).map fun c => (r.hostName c.1, c.2) :=
    (List.map_filterMap ..).symm
  rw [hm] at h
  exact h.of_map

theorem Exclusive.position (h : r.Exclusive) {i j : Nat} {c : String × String}
    (hi : r.subjects[i]? = some (some c)) (hj : r.subjects[j]? = some (some c)) : i = j := by
  rw [← subjects_summaries] at hi hj
  exact position_unique h hi hj

section Steps

/-- What was seen to be entered, as an entry. -/
def entry (r : Registry) (now : Instant) (x : Nat × View) : StateEntry :=
  ⟨now, r.hostName x.1, x.2.boundTo?.getD "", x.2.stateText⟩

theorem entered?_eq (r : Registry) (now : Instant) (s : Sighting) :
    s.entered? r now = s.entrance?.map (r.entry now) := by
  obtain ⟨host, entry⟩ := s
  rcases entry with _ | _ | ⟨state, phase, label, v⟩ | _ | _
  case called => cases phase <;> rfl
  all_goals rfl

/-- The entry for a machine that shows another state after a step. -/
def news? (r : Registry) (now : Instant) (x : Station × Station) : Option StateEntry :=
  (x.1.entrance? x.2).map (r.entry now)

theorem news?_cases (hf : x.2.fixed = x.1.fixed)
    (hn : x.2.machine.currentName? ≠ x.1.machine.currentName? →
      x.2.machine.currentName?.isSome) :
    (r.news? now x = none ∧ x.2.machine.currentName? = x.1.machine.currentName?) ∨
      ∃ a, r.news? now x = some a ∧ a.time = now ∧ r.subject? x.1 = some a.subject ∧
        x.2.machine.currentName? = some a.state ∧ x.1.machine.currentName? ≠ some a.state := by
  obtain ⟨s, s'⟩ := x
  dsimp only at hf hn ⊢
  rcases eq_or_ne s'.machine.currentName? s.machine.currentName? with heq | hne
  · exact .inl ⟨by simp [news?, Station.entrance?, heq], heq⟩
  · obtain ⟨name, hname⟩ := Option.isSome_iff_exists.1 (hn hne)
    have hstate : s'.machine.view.stateText = name := by
      change (s'.machine.currentName?).getD "?" = name
      rw [hname, Option.getD_some]
    obtain ⟨p, hp⟩ : ∃ p, s'.machine.program? = some p := by
      rcases hp : s'.machine.program? with _ | p
      · simp [Machine.currentName?, Machine.state?, hp] at hname
      · exact ⟨p, rfl⟩
    have hprog : s.machine.program? = some p :=
      (congrArg (·.machine.program?) hf).symm.trans hp
    refine .inr ⟨r.entry now (s.host, s'.machine.view), ?_, rfl, ?_, ?_, ?_⟩
    · simp [news?, Station.entrance?, hne]
    · have hbound : s'.machine.view.boundTo? = some p.variableName := by
        simp [Machine.view, Machine.boundTo?, hp]
      simp [subject?, Station.cell?_eq hprog, StateEntry.subject, entry, hbound]
    · rw [hname, entry, hstate]
    · rw [entry, hstate, ← hname]
      exact hne.symm

variable (hr : r.Follows) (he : ∀ e ∈ st.applied, r.Suits e) (hR : R.fixed = r.fixed)

include hr he in
theorem Takes.stateEntries (h : r.Takes st r') (R : Registry) :
    st.stateEntries R = (r.stations.zip r'.stations).filterMap (R.news? st.now) := by
  have hseen := congrArg (·.map (R.entry st.now)) (h.follows hr he).2.1
  simp only [List.map_filterMap] at hseen
  rw [Step.stateEntries]
  simp only [entered?_eq]
  exact hseen

theorem Takes.fixed_of_zip (h : r.Takes st r') {i : Nat}
    (hx : (r.stations.zip r'.stations)[i]? = some x) :
    r.stations[i]? = some x.1 ∧ r'.stations[i]? = some x.2 ∧ x.2.fixed = x.1.fixed := by
  obtain ⟨h₁, h₂⟩ := List.getElem?_zip_eq_some.1 hx
  refine ⟨h₁, h₂, ?_⟩
  have hf := congrArg (·.stations[i]?) h.fixed
  simpa [Registry.fixed, h₁, h₂] using hf

include hr he hR in
/-- What is told of a machine in a step. -/
theorem Takes.news (h : r.Takes st r') {i : Nat}
    (hx : (r.stations.zip r'.stations)[i]? = some x) :
    (R.news? st.now x = none ∧ x.2.machine.currentName? = x.1.machine.currentName?) ∨
      ∃ a, R.news? st.now x = some a ∧ a.time = st.now ∧
        R.subjects[i]? = some (some a.subject) ∧ x.2.machine.currentName? = some a.state ∧
        x.1.machine.currentName? ≠ some a.state := by
  obtain ⟨h₁, -, hf⟩ := h.fixed_of_zip hx
  refine (news?_cases hf ((h.follows hr he).2.2 x (List.mem_of_getElem? hx))).imp_right ?_
  rintro ⟨a, ha, htime, hsubject, hstates⟩
  refine ⟨a, ha, htime, ?_, hstates⟩
  rw [subjects_of_fixed hR, subjects, List.getElem?_map, h₁, ← hsubject,
    subject?_of_fixed hR rfl]
  rfl

include hr he hR in
theorem Takes.owned (h : r.Takes st r') : ∀ a ∈ st.stateEntries R,
    a.time = st.now ∧ ∃ i : Nat, R.subjects[i]? = some (some a.subject) := by
  intro a ha
  rw [h.stateEntries hr he] at ha
  obtain ⟨x, hx, hnews⟩ := List.mem_filterMap.1 ha
  obtain ⟨i, hi⟩ := List.getElem?_of_mem hx
  rcases h.news hr he hR hi with ⟨hnone, -⟩ | ⟨b, hb, htime, hsubject, -⟩
  · rw [hnone] at hnews
    cases hnews
  · obtain rfl : b = a := Option.some.inj (hb.symm.trans hnews)
    exact ⟨htime, i, hsubject⟩

section Exclusive

variable (hx : R.Exclusive)

include hr he hR hx

theorem Takes.ordered (h : r.Takes st r') : (st.stateEntries R).Pairwise fun a b =>
    ∀ i j : Nat, R.subjects[i]? = some (some a.subject) →
      R.subjects[j]? = some (some b.subject) → i < j := by
  have hown : ∀ (k : Nat) (hk : k < (r.stations.zip r'.stations).length) (a : StateEntry),
      R.news? st.now (r.stations.zip r'.stations)[k] = some a →
      R.subjects[k]? = some (some a.subject) := by
    intro k hk a ha
    rcases h.news hr he hR (List.getElem?_eq_getElem hk) with ⟨hnone, -⟩ | ⟨b, hb, -, hb', -⟩
    · rw [hnone] at ha
      cases ha
    · obtain rfl : b = a := Option.some.inj (hb.symm.trans ha)
      exact hb'
  rw [h.stateEntries hr he, List.pairwise_filterMap, List.pairwise_iff_getElem]
  intro k l hk hl hkl a ha b hb i j hi hj
  rwa [hx.position hi (hown k hk a ha), hx.position hj (hown l hl b hb)]

/-- What a step tells of one machine. -/
theorem Takes.told (h : r.Takes st r') {i : Nat} {c : String × String}
    (hs : r.stations[i]? = some s) (hc : R.subjects[i]? = some (some c)) :
    ∃ s', r'.stations[i]? = some s' ∧
      (((st.stateEntries R).filter (·.subject = c) = [] ∧
        s'.machine.currentName? = s.machine.currentName?) ∨
      ∃ a, (st.stateEntries R).filter (·.subject = c) = [a] ∧
        s'.machine.currentName? = some a.state ∧ s.machine.currentName? ≠ some a.state) := by
  have hlen := congrArg (·.stations.length) h.fixed
  simp only [Registry.fixed, List.length_map] at hlen
  have hlt : i < r'.stations.length := by
    rw [hlen]
    exact (List.getElem?_eq_some_iff.1 hs).1
  have hs' := List.getElem?_eq_getElem hlt
  have hzip : (r.stations.zip r'.stations)[i]? = some (s, r'.stations[i]) :=
    List.getElem?_zip_eq_some.2 ⟨hs, hs'⟩
  have hfilter : (st.stateEntries R).filter (·.subject = c)
      = (R.news? st.now (s, r'.stations[i])).toList := by
    rw [h.stateEntries hr he]
    refine filter_filterMap_eq hzip fun j x a hj ha => ?_
    rcases h.news hr he hR hj with ⟨hnone, -⟩ | ⟨b, hb, -, hsubject, -⟩
    · rw [hnone] at ha
      cases ha
    · obtain rfl : b = a := Option.some.inj (hb.symm.trans ha)
      rw [decide_eq_true_iff]
      constructor
      · rintro rfl
        exact hx.position hsubject hc
      · rintro rfl
        rw [hc, Option.some.injEq, Option.some.injEq] at hsubject
        exact hsubject.symm
  refine ⟨_, hs', ?_⟩
  rcases h.news hr he hR hzip with ⟨hnone, hname⟩ | ⟨a, ha, -, -, hname, hne⟩
  · exact .inl ⟨by rw [hfilter, hnone]; rfl, hname⟩
  · exact .inr ⟨a, by rw [hfilter, ha]; rfl, hname, hne⟩

end Exclusive

end Steps

section Replays

variable {r r' R : Registry} {steps : List Step}

/-- The steps of a run are taken by machines that follow their variables. -/
theorem Replays.takes (h : r.Replays steps r') (hr : r.Follows)
    (he : ∀ st ∈ steps, ∀ e ∈ st.applied, r.Suits e) : ∀ st ∈ steps, ∃ q q' : Registry,
      q.Takes st q' ∧ q.Follows ∧ (∀ e ∈ st.applied, q.Suits e) ∧ q.fixed = r.fixed := by
  induction h with
  | none => simp
  | @step r r₁ r' st steps ht _ ih =>
    obtain ⟨he, hes⟩ := List.forall_mem_cons.1 he
    refine List.forall_mem_cons.2 ⟨⟨r, r₁, ht, hr, he, rfl⟩, fun st' hst' => ?_⟩
    obtain ⟨q, q', hq, hfollows, hsuits, hf⟩ := ih (ht.follows hr he).1
      (fun st' hst' e he' => suits_of_fixed ht.fixed (hes st' hst' e he')) st' hst'
    exact ⟨q, q', hq, hfollows, hsuits, hf.trans ht.fixed⟩

variable (hr : r.Follows) (he : ∀ st ∈ steps, ∀ e ∈ st.applied, r.Suits e)
  (hR : R.fixed = r.fixed)

include hr he hR

theorem Replays.owned (h : r.Replays steps r') : ∀ st ∈ steps, ∀ a ∈ st.stateEntries R,
    a.time = st.now ∧ ∃ i : Nat, R.subjects[i]? = some (some a.subject) := by
  intro st hst
  obtain ⟨q, q', hq, hfollows, hsuits, hf⟩ := h.takes hr he st hst
  exact hq.owned hfollows hsuits (hR.trans hf.symm)

theorem Replays.ordered (h : r.Replays steps r') (hx : R.Exclusive)
    (hn : steps.Pairwise (·.now < ·.now)) :
    (steps.flatMap (·.stateEntries R)).Pairwise fun a b => a.time < b.time ∨ a.time = b.time ∧
      ∀ i j : Nat, R.subjects[i]? = some (some a.subject) →
        R.subjects[j]? = some (some b.subject) → i < j := by
  have howned := h.owned hr he hR
  refine List.pairwise_flatMap.2 ⟨fun st hst => ?_, hn.imp_of_mem fun hst hst' hlt => ?_⟩
  · obtain ⟨q, q', hq, hfollows, hsuits, hf⟩ := h.takes hr he st hst
    refine (hq.ordered hfollows hsuits (hR.trans hf.symm) hx).imp_of_mem fun ha hb hab => ?_
    exact .inr ⟨(howned st hst _ ha).1.trans (howned st hst _ hb).1.symm, hab⟩
  · intro a ha b hb
    rw [(howned _ hst a ha).1, (howned _ hst' b hb).1]
    exact .inl hlt

omit hr he hR in
theorem lastState_cons (a : StateEntry) (entries : List StateEntry) (first : Option String) :
    ((a :: entries).getLast?.map (·.state)).or first
      = (entries.getLast?.map (·.state)).or (some a.state) := by
  rw [List.getLast?_cons]
  rcases entries.getLast? with _ | b <;> rfl

/-- The entries of one machine lead from its first state to its last. -/
theorem Replays.told (h : r.Replays steps r') (hx : R.Exclusive) {i : Nat} {s : Station}
    {c : String × String} (hs : r.stations[i]? = some s) (hc : R.subjects[i]? = some (some c)) :
    ∃ s', r'.stations[i]? = some s' ∧
      (s.machine.currentName? :: ((steps.flatMap (·.stateEntries R)).filter (·.subject = c)).map
        (some ·.state)).IsChain (· ≠ ·) ∧
      s'.machine.currentName? =
        (((steps.flatMap (·.stateEntries R)).filter (·.subject = c)).getLast?.map (·.state)).or
          s.machine.currentName? := by
  induction h generalizing s with
  | none => exact ⟨s, hs, by simp, by simp⟩
  | @step r r₁ r' st steps ht _ ih =>
    obtain ⟨he, hes⟩ := List.forall_mem_cons.1 he
    obtain ⟨s₁, hs₁, htold⟩ := ht.told hr he hR hx hs hc
    obtain ⟨s', hs', hchain, hlast⟩ := ih (ht.follows hr he).1
      (fun st' hst' e he' => suits_of_fixed ht.fixed (hes st' hst' e he'))
      (hR.trans ht.fixed.symm) hs₁
    refine ⟨s', hs', ?_⟩
    rw [List.flatMap_cons, List.filter_append]
    -- The rest leads on from the state that this step leaves, which is the one it tells of, if any.
    rcases htold with ⟨hnone, hname⟩ | ⟨a, ha, hname, hne⟩
    · rw [hname] at hchain hlast
      rw [hnone]
      exact ⟨hchain, hlast⟩
    · rw [hname] at hchain hlast
      rw [ha, List.singleton_append, List.map_cons, lastState_cons]
      exact ⟨List.isChain_cons_cons.2 ⟨hne, hchain⟩, hlast⟩

end Replays

end Registry

section Reports

variable {s : Simulation}

theorem Report.owns_iff {run : Run} {i : Nat} {a : StateEntry} :
    (s.report run).Owns i a ↔ run.registry.subjects[i]? = some (some a.subject) := by
  rw [Report.Owns, ← Registry.subjects_summaries]
  rfl

theorem Simulation.transitions_report (htrace : s.trace = []) (run : Run) :
    (s.report run).transitions = run.steps.flatMap (·.stateEntries run.registry) := by
  rw [Simulation.report, htrace]
  rfl

/-- A machine has no two entries of the same time, as it does not come before itself. -/
theorem Report.pairwise_time {rep : Report} {i : Nat} {c : String × String}
    (ho : rep.transitions.Pairwise fun a b =>
      a.time < b.time ∨ a.time = b.time ∧ ∀ i j, rep.Owns i a → rep.Owns j b → i < j)
    (hi : (rep.machines.map (·.subject?))[i]? = some (some c)) :
    (rep.transitions.filter (·.subject = c)).Pairwise (·.time < ·.time) := by
  have hsubject : ∀ a ∈ rep.transitions.filter (·.subject = c), rep.Owns i a := by
    intro a ha
    rw [Report.Owns, hi, of_decide_eq_true (List.mem_filter.1 ha).2]
  refine (ho.filter _).imp_of_mem fun {a b} ha hb hab => hab.resolve_right ?_
  rintro ⟨-, hlt⟩
  exact lt_irrefl _ (hlt i i (hsubject a ha) (hsubject b hb))

theorem Simulation.report_tells (hr : s.opening.Follows) (hx : s.opening.Exclusive)
    (he : ∀ e ∈ s.events, s.opening.Suits e) (htrace : s.trace = [])
    (hwindow : s.window.start ≤ s.window.stop) (hf : s.run.ending = .finished) :
    (s.report s.run).Tells s.opening.summaries := by
  have hp := s.passes_run
  have hreplays := hp.replays hf
  have hR : s.run.registry.fixed = s.opening.fixed := hp.fixed
  have hsuits : ∀ st ∈ s.run.steps, ∀ e ∈ st.applied, s.opening.Suits e :=
    fun st hst e he' => he e (hp.mem_pending st hst e he')
  have hexclusive := Registry.exclusive_of_fixed hR hx
  have htransitions := Simulation.transitions_report htrace s.run
  have howned : ∀ a ∈ (s.report s.run).transitions, (∃ st ∈ s.run.steps, a.time = st.now) ∧
      ∃ i, (s.report s.run).Owns i a := by
    intro a ha
    rw [htransitions] at ha
    obtain ⟨st, hst, ha⟩ := List.mem_flatMap.1 ha
    obtain ⟨htime, i, hi⟩ := hreplays.owned hr hsuits hR st hst a ha
    exact ⟨⟨st, hst, htime⟩, i, Report.owns_iff.2 hi⟩
  have hordered : (s.report s.run).transitions.Pairwise fun a b => a.time < b.time ∨
      a.time = b.time ∧ ∀ i j, (s.report s.run).Owns i a → (s.report s.run).Owns j b → i < j := by
    rw [htransitions]
    simp only [Report.owns_iff]
    exact hreplays.ordered hr hsuits hR hexclusive hp.pairwise_now
  refine ⟨fun i m hm => ?_, fun a ha => (howned a ha).2, hordered⟩
  have hmap : (s.run.registry.summaries[i]?).map (·.subject?) = some m.subject? := by
    rw [← List.getElem?_map, Registry.subjects_summaries, Registry.subjects_of_fixed hR,
      ← Registry.subjects_summaries, List.getElem?_map, hm]
    rfl
  obtain ⟨m', hm', hsubject⟩ := Option.map_eq_some_iff.1 hmap
  refine ⟨m', hm', hsubject, fun c hc => ?_⟩
  have hposition : (s.run.registry.summaries.map (·.subject?))[i]? = some (some c) := by
    rw [List.getElem?_map, hm', Option.map_some, hsubject, hc]
  have hincreasing := Report.pairwise_time hordered hposition
  rw [Registry.subjects_summaries] at hposition
  rw [Registry.summaries, List.getElem?_map, Option.map_eq_some_iff] at hm hm'
  obtain ⟨st, hst, rfl⟩ := hm
  obtain ⟨st', hst', rfl⟩ := hm'
  obtain ⟨last, hlast, hchain, hstate⟩ := hreplays.told hr hsuits hR hexclusive hst hposition
  obtain rfl : st' = last := Option.some.inj (hst'.symm.trans hlast)
  rw [← htransitions] at hchain hstate
  refine ⟨fun a ha => ?_, hincreasing, hchain, hstate⟩
  obtain ⟨⟨st, hst, htime⟩, -⟩ := howned a (List.mem_of_mem_filter ha)
  rw [htime]
  exact ⟨hp.le_now st hst, hp.now_le_stop hwindow st hst⟩

end Reports

/-- The report of the first run tells the history of every machine that alone has its state
variable, when events give those the values of states. -/
theorem Scenario.report_tells_history {sc : Scenario} {s : Simulation}
    (hb : sc.build.result = .ok s) (ht : sc.Tabular) (hx : s.registry.Exclusive)
    (he : ∀ e ∈ sc.events, s.registry.Suits e) (hf : s.run.ending = .finished) :
    (s.report s.run).Tells s.opening.summaries := by
  obtain ⟨hflaw, -, hw, hevents, htrace, -⟩ := build_ok hb
  have hfixed : s.opening.fixed = s.registry.fixed := Registry.fixed_initAll ..
  refine Simulation.report_tells (follows_opening hb ht hx.cells)
    (Registry.exclusive_of_fixed hfixed hx) (fun e hmem => ?_) htrace
    (hw ▸ (flaw?_eq_none hflaw).1) hf
  rw [hevents] at hmem
  exact Registry.suits_of_fixed hfixed (he e ((sortEvents_perm sc.events).subset hmem))

/-- A heater and a fan that go on at the same step. That the heater is switched off in between is
not seen: it is held then, and goes on again as the hold ends. -/
def airing : Scenario where
  window := ⟨.clamp 0, .clamp 10, 4⟩
  hosts := [{
    name := "room"
    properties := [("fan", .enumeration [⟨"OFF", 0⟩, ⟨"ON", 1⟩] 0),
      ("heater", .enumeration [⟨"OFF", 0⟩, ⟨"ON", 1⟩] 0)]
    machines := ["state:heater;rule:OFF->ON=$timer>=2;hold:ON=3",
      "state:fan;rule:OFF->ON=$timer>=4;rule:ON->OFF=$timer>=3"] }]
  events := [{ time := .clamp 6, host := "room", property := "heater", value := 0.0 }]

theorem report_tells_airing : ∃ s, airing.build.result = .ok s ∧
    (s.report s.run).Tells s.opening.summaries ∧
    (s.report s.run).transitions = [⟨.clamp 4, "room", "heater", "ON"⟩,
      ⟨.clamp 4, "room", "fan", "ON"⟩, ⟨.clamp 7, "room", "fan", "OFF"⟩] := by
  have h : airing.buildsTo (fun s => s.run.ending.isFinished &&
      decide (s.registry.Exclusive ∧ (∀ e ∈ airing.events, s.registry.Suits e) ∧
        (s.report s.run).transitions = [⟨.clamp 4, "room", "heater", "ON"⟩,
          ⟨.clamp 4, "room", "fan", "ON"⟩, ⟨.clamp 7, "room", "fan", "OFF"⟩])) = true := by
    decide +kernel
  have ht : airing.Tabular := by
    simp only [Scenario.Tabular, airing, Declaration.Tabular, List.forall_mem_singleton,
      List.forall_mem_cons]
    decide
  obtain ⟨s, hs, hs'⟩ := Scenario.of_buildsTo h
  rw [Bool.and_eq_true, Ending.isFinished_iff, decide_eq_true_iff] at hs'
  obtain ⟨hf, hx, he, hentries⟩ := hs'
  exact ⟨s, hs, Scenario.report_tells_history hs ht hx he hf, hentries⟩

end Dwell

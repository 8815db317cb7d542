import Dwell.Proofs.Registry

/-!
# The passes of a run

A run goes from pass to pass, each with its registry, the events still to come and its time, until
it ends in one of three ways (`passes_stepFrom`). What holds of runs is proved along these passes.
-/

namespace Dwell

/-- A step takes one registry to another: its events are applied, and then all machines ticked. -/
def Registry.Takes (r : Registry) (st : Step) (r' : Registry) : Prop :=
  ∃ between, r.applyEvents st.applied = (between, st.applied, none) ∧
    between.tickAll st.now = (st.wake, r', st.seen)

/-- Steps in a row take one registry to another. -/
inductive Registry.Replays : Registry → List Step → Registry → Prop
  | none {r} : Replays r [] r
  | step {r r' r'' st steps} : r.Takes st r' → Replays r' steps r'' → Replays r (st :: steps) r''

namespace Registry

variable {r r' r₁ r₂ : Registry} {st : Step} {steps more : List Step}

theorem Takes.unique (h₁ : r.Takes st r₁) (h₂ : r.Takes st r₂) : r₁ = r₂ := by
  obtain ⟨b₁, ha₁, ht₁⟩ := h₁
  obtain ⟨b₂, ha₂, ht₂⟩ := h₂
  rw [ha₁] at ha₂
  cases ha₂
  rw [ht₁] at ht₂
  cases ht₂
  rfl

theorem Takes.fixed (h : r.Takes st r') : r'.fixed = r.fixed := by
  obtain ⟨b, ha, ht⟩ := h
  have h₁ := fixed_applyEvents st.applied r
  have h₂ := fixed_tickAll b st.now
  rw [ha] at h₁
  rw [ht] at h₂
  exact h₂.trans h₁

theorem Replays.fixed (h : r.Replays steps r') : r'.fixed = r.fixed := by
  induction h with
  | none => rfl
  | step ht _ ih => exact ih.trans ht.fixed

theorem Takes.isAhead_wake (h : r.Takes st r') : st.now.IsAhead st.wake := by
  obtain ⟨b, -, ht⟩ := h
  have := b.isAhead_tickAll st.now
  rwa [ht] at this

/-- In a step every machine is ticked once, and the step's wake time is no later than its
answer. -/
theorem Takes.station (h : r.Takes st r') (hr : r.Fits) {i : Nat} {s : Station}
    (hs : r.stations[i]? = some s) :
    ∃ host, r'.stations[i]? = some { s with machine := (s.machine.tick host st.now).machine } ∧
      st.wake ≤ (s.machine.tick host st.now).answer := by
  obtain ⟨b, ha, ht⟩ := h
  have hf := fixed_applyEvents st.applied r
  have hst := stations_applyEvents st.applied r
  rw [ha] at hf hst
  have hb : b.Fits := fits_of_fixed hf hr
  obtain ⟨host, -, hticked⟩ := tickAll_station hb (hst ▸ hs) st.now
  rw [ht] at hticked
  exact ⟨host, hticked⟩

theorem Takes.station_of_mem (h : r.Takes st r') (hr : r.Fits) {s' : Station}
    (hs' : s' ∈ r'.stations) : ∃ s ∈ r.stations, ∃ host,
      s' = { s with machine := (s.machine.tick host st.now).machine } ∧
        st.wake ≤ (s.machine.tick host st.now).answer := by
  obtain ⟨i, hi⟩ := List.getElem?_of_mem hs'
  have hlen := congrArg (·.stations.length) h.fixed
  simp only [Registry.fixed, List.length_map] at hlen
  have hlt : i < r.stations.length := hlen ▸ (List.getElem?_eq_some_iff.1 hi).1
  obtain ⟨host, hst, hwake⟩ := h.station hr (List.getElem?_eq_getElem hlt)
  rw [hi] at hst
  exact ⟨_, List.getElem_mem hlt, host, Option.some.inj hst, hwake⟩

end Registry

namespace Simulation

/-- The events that are due at `now`, of those still to come. -/
def due (now : Instant) (pending : List Event) : List Event :=
  pending.takeWhile (·.time ≤ now)

/-- The events that are not due at `now` yet. -/
def later (now : Instant) (pending : List Event) : List Event :=
  pending.dropWhile (·.time ≤ now)

/-- A run from a registry, with some events still to come, at some time. -/
inductive Passes (w : Window) : Registry → List Event → Instant → Run → Prop
  | failed {r pending now r' applied fault} :
    r.applyEvents (due now pending) = (r', applied, some fault) →
    Passes w r pending now ⟨[], .failed applied fault, r'⟩
  | finished {r pending r'} {st : Step} :
    st.applied = due st.now pending → r.Takes st r' →
    w.stop < next w (later st.now pending) st.now st.wake →
    Passes w r pending st.now ⟨[st], .finished, r'⟩
  | stuck {r pending r'} {st : Step} :
    st.applied = due st.now pending → r.Takes st r' →
    next w (later st.now pending) st.now st.wake ≤ w.stop →
    next w (later st.now pending) st.now st.wake ≤ st.now →
    Passes w r pending st.now ⟨[st], .endless, r'⟩
  | passed {r pending r' now run} {st : Step} :
    st.applied = due st.now pending → r.Takes st r' →
    next w (later st.now pending) st.now st.wake = now →
    now ≤ w.stop → st.now < now →
    Passes w r' (later st.now pending) now run →
    Passes w r pending st.now { run with steps := st :: run.steps }

/-- The steps before a step of a run lead to the registry that takes it. -/
theorem Passes.reaches {w : Window} {r : Registry} {pending : List Event} {now : Instant}
    {run : Run} (h : Passes w r pending now run) : ∀ {before : List Step} {st : Step} {after : List Step},
    run.steps = before ++ st :: after → ∃ q q', r.Replays before q ∧ q.Takes st q' := by
  induction h with
  | failed _ => simp
  | finished _ ht _ | stuck _ ht _ _ =>
    intro before st after hs
    -- The only step has none before it.
    obtain ⟨rfl, hlast⟩ := (List.append_eq_singleton_iff.1 hs.symm).resolve_right (by simp)
    cases hlast
    exact ⟨_, _, .none, ht⟩
  | passed _ ht _ _ _ _ ih =>
    intro before st after hs
    cases before with
    | nil =>
      cases hs
      exact ⟨_, _, .none, ht⟩
    | cons b before =>
      obtain ⟨rfl, htail⟩ := List.cons.inj hs
      obtain ⟨q, q', hq, hst⟩ := ih htail
      exact ⟨q, q', .step ht hq, hst⟩

/-- The steps of a run are taken by machines on the hosts that it begins with. -/
theorem Passes.takes {w : Window} {r : Registry} {pending : List Event} {now : Instant} {run : Run}
    (h : Passes w r pending now run) :
    ∀ st ∈ run.steps, ∃ q q' : Registry, q.Takes st q' ∧ q.fixed = r.fixed := by
  intro st hst
  obtain ⟨before, after, hs⟩ := List.append_of_mem hst
  obtain ⟨q, q', hq, ht⟩ := h.reaches hs
  exact ⟨q, q', ht, hq.fixed⟩

theorem takes_of_eq {r between r' : Registry} {es applied : List Event} {now wake : Instant}
    {seen : List Sighting} (ha : r.applyEvents es = (between, applied, none))
    (ht : between.tickAll now = (wake, r', seen)) :
    applied = es ∧ r.Takes ⟨now, applied, wake, seen⟩ r' := by
  have h := Registry.applied_applyEvents es r (by rw [ha])
  rw [ha] at h
  dsimp only at h
  subst h
  exact ⟨rfl, between, ha, ht⟩

theorem passes_stepFrom (w : Window) (r : Registry) (pending : List Event) (now : Instant) :
    Passes w r pending now (stepFrom w r pending now) := by
  fun_induction stepFrom w r pending now with
  | case1 r pending now r' applied fault ha => exact .failed ha
  | case2 r pending now rest between applied ha wake r' seen ht st next hstop =>
    obtain ⟨happlied, htakes⟩ := takes_of_eq ha ht
    exact .finished happlied htakes hstop
  | case3 r pending now rest between applied ha wake r' seen ht st next hstop hstuck =>
    obtain ⟨happlied, htakes⟩ := takes_of_eq ha ht
    exact .stuck happlied htakes (not_lt.1 hstop) hstuck
  | case4 r pending now rest between applied ha wake r' seen ht st next hstop hnow run ih =>
    obtain ⟨happlied, htakes⟩ := takes_of_eq ha ht
    exact .passed happlied htakes rfl (not_lt.1 hstop) (not_le.1 hnow) ih

theorem stepFrom_of_takes (w : Window) {r r' : Registry} {pending : List Event} {st : Step}
    (he : st.applied = due st.now pending) (ht : r.Takes st r') :
    stepFrom w r pending st.now =
      let time := next w (later st.now pending) st.now st.wake
      if w.stop < time then ⟨[st], .finished, r'⟩
      else if time ≤ st.now then ⟨[st], .endless, r'⟩
      else
        let run := stepFrom w r' (later st.now pending) time
        { run with steps := st :: run.steps } := by
  obtain ⟨now, applied, wake, seen⟩ := st
  obtain ⟨between, ha, ht⟩ := ht
  dsimp only at he ha ht ⊢
  subst he
  rw [due] at ha
  rw [stepFrom]
  simp only [ha, ht]
  rfl

/-- There is one run along the passes from a registry, its events and its time. -/
theorem Passes.eq_stepFrom {w : Window} {r : Registry} {pending : List Event} {now : Instant}
    {run : Run} (h : Passes w r pending now run) : run = stepFrom w r pending now := by
  induction h with
  | failed ha =>
    rw [due] at ha
    rw [stepFrom]
    simp only [ha]
  | finished he ht hstop =>
    rw [stepFrom_of_takes w he ht]
    dsimp only
    rw [if_pos hstop]
  | stuck he ht hle hstuck =>
    rw [stepFrom_of_takes w he ht]
    dsimp only
    rw [if_neg (not_lt.2 hle), if_pos hstuck]
  | passed he ht hnext hle hnow _ ih =>
    subst hnext
    rw [stepFrom_of_takes w he ht]
    dsimp only
    rw [if_neg (not_lt.2 hle), if_neg (not_le.2 hnow), ← ih]

end Simulation

end Dwell
